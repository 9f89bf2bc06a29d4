import Mathlib

/- Machine words, and their byte order on a little-endian host. A 32-bit word is a
   natural number below 2^32; `htonl` and `ntohl` reverse its four bytes, `htons` and
   `ntohs` keep the low sixteen bits (their parameter is a `uint16_t`) and reverse two.
   In memory a word lies low byte first, so `htonl` followed by a store writes the
   number high byte first. -/
namespace LightRpc

open List

abbrev Bytes := List UInt8

/-- Arithmetic of a 32-bit `int`. -/
def int32 (x : Int) : Int := x.bmod (2 ^ 32)

/-- An `int` read as `uint32_t`. -/
def uint32 (x : Int) : Nat := (x % 2 ^ 32).toNat

theorem int32_of_bounds {x : Int} (hlo : -2 ^ 31 ≤ x) (hhi : x < 2 ^ 31) : int32 x = x :=
  Int.bmod_eq_of_le (by omega) (by omega)

theorem int32_bounds (x : Int) : -2 ^ 31 ≤ int32 x ∧ int32 x < 2 ^ 31 := by
  have hlo := Int.le_bmod (x := x) (m := 2 ^ 32) (by decide)
  have hhi := Int.bmod_lt (x := x) (m := 2 ^ 32) (by decide)
  unfold int32
  omega

theorem int32_emod (x : Int) : int32 x % 2 ^ 32 = x % 2 ^ 32 := Int.bmod_emod

theorem uint32_cast (x : Int) : (uint32 x : Int) = x % 2 ^ 32 :=
  Int.toNat_of_nonneg (Int.emod_nonneg x (by decide))

theorem uint32_of_bounds {x : Int} (hlo : 0 ≤ x) (hhi : x < 2 ^ 32) : (uint32 x : Int) = x := by
  rw [uint32_cast, Int.emod_eq_of_lt hlo hhi]

theorem uint32_lt (x : Int) : uint32 x < 2 ^ 32 := by
  have := uint32_cast x
  omega

/-- The four bytes of a `uint32_t`, reversed. -/
def htonl (x : Nat) : Nat :=
  x % 256 * 2 ^ 24 + x / 2 ^ 8 % 256 * 2 ^ 16 + x / 2 ^ 16 % 256 * 2 ^ 8 + x / 2 ^ 24 % 256

def ntohl (x : Nat) : Nat := htonl x

/-- A wider argument is first truncated to `uint16_t`. -/
def htons (x : Nat) : Nat := x % 256 * 2 ^ 8 + x / 2 ^ 8 % 256

def ntohs (x : Nat) : Nat := htons x

theorem htonl_lt (x : Nat) : htonl x < 2 ^ 32 := by
  unfold htonl; omega

/-- A word as its four bytes, low byte first. -/
theorem word_digits {x : Nat} (h : x < 2 ^ 32) : ∃ a b c d, a < 256 ∧ b < 256 ∧ c < 256 ∧ d < 256 ∧
    x = a + b * 2 ^ 8 + c * 2 ^ 16 + d * 2 ^ 24 := by
  refine ⟨x % 256, x / 2 ^ 8 % 256, x / 2 ^ 16 % 256, x / 2 ^ 24 % 256, ?_, ?_, ?_, ?_, ?_⟩ <;> omega

theorem htonl_digits {a b c d : Nat} (ha : a < 256) (hb : b < 256) (hc : c < 256) (hd : d < 256) :
    htonl (a + b * 2 ^ 8 + c * 2 ^ 16 + d * 2 ^ 24) = d + c * 2 ^ 8 + b * 2 ^ 16 + a * 2 ^ 24 := by
  have h0 : (a + b * 2 ^ 8 + c * 2 ^ 16 + d * 2 ^ 24) % 256 = a := by omega
  have h1 : (a + b * 2 ^ 8 + c * 2 ^ 16 + d * 2 ^ 24) / 2 ^ 8 % 256 = b := by omega
  have h2 : (a + b * 2 ^ 8 + c * 2 ^ 16 + d * 2 ^ 24) / 2 ^ 16 % 256 = c := by omega
  have h3 : (a + b * 2 ^ 8 + c * 2 ^ 16 + d * 2 ^ 24) / 2 ^ 24 % 256 = d := by omega
  unfold htonl
  rw [h0, h1, h2, h3]
  omega

theorem ntohl_htonl {x : Nat} (h : x < 2 ^ 32) : ntohl (htonl x) = x := by
  obtain ⟨a, b, c, d, ha, hb, hc, hd, rfl⟩ := word_digits h
  rw [htonl_digits ha hb hc hd, ntohl, htonl_digits hd hc hb ha]

/-- What `ntohs` makes of a word in network order: its high half. -/
theorem ntohs_htonl {x : Nat} (h : x < 2 ^ 32) : ntohs (htonl x) = x / 2 ^ 16 := by
  obtain ⟨a, b, c, d, ha, hb, hc, hd, rfl⟩ := word_digits h
  have hlo : (d + c * 2 ^ 8 + b * 2 ^ 16 + a * 2 ^ 24) % 256 = d := by omega
  have hhi : (d + c * 2 ^ 8 + b * 2 ^ 16 + a * 2 ^ 24) / 2 ^ 8 % 256 = c := by omega
  rw [htonl_digits ha hb hc hd, ntohs, htons, hlo, hhi]
  omega

/-- `htonl` takes only zero to zero. -/
theorem htonl_pos {x : Nat} (h : x < 2 ^ 32) (hx : 0 < x) : 0 < htonl x := by
  obtain ⟨a, b, c, d, ha, hb, hc, hd, rfl⟩ := word_digits h
  rw [htonl_digits ha hb hc hd]
  omega

theorem htons_lt (x : Nat) : htons x < 2 ^ 16 := by
  unfold htons; omega

theorem ntohs_htons {x : Nat} (h : x < 2 ^ 16) : ntohs (htons x) = x := by
  obtain ⟨a, b, ha, hb, rfl⟩ : ∃ a b, a < 256 ∧ b < 256 ∧ x = a + b * 2 ^ 8 :=
    ⟨x % 256, x / 256, by omega, by omega, by omega⟩
  have hswap : htons (a + b * 2 ^ 8) = b + a * 2 ^ 8 := by
    unfold htons
    omega
  rw [hswap, ntohs]
  unfold htons
  omega

/-! Words in memory. -/

/-- `memcpy` of a `uint32_t` into a buffer. -/
def storeWord (w : Nat) : Bytes :=
  [UInt8.ofNat w, UInt8.ofNat (w / 2 ^ 8), UInt8.ofNat (w / 2 ^ 16), UInt8.ofNat (w / 2 ^ 24)]

/-- `memcpy` of the first four bytes of a buffer into a zeroed `uint32_t`. -/
def loadWord (b : Bytes) : Nat :=
  (b.getD 0 0).toNat + (b.getD 1 0).toNat * 2 ^ 8 + (b.getD 2 0).toNat * 2 ^ 16 +
    (b.getD 3 0).toNat * 2 ^ 24

/-- `memcpy` of a `uint16_t`. -/
def storeHalf (w : Nat) : Bytes := [UInt8.ofNat w, UInt8.ofNat (w / 2 ^ 8)]

def loadHalf (b : Bytes) : Nat := (b.getD 0 0).toNat + (b.getD 1 0).toNat * 2 ^ 8

theorem storeWord_length (w : Nat) : (storeWord w).length = 4 := rfl

theorem loadWord_storeWord {w : Nat} (h : w < 2 ^ 32) (rest : Bytes) : loadWord (storeWord w ++ rest) = w := by
  simp only [loadWord, storeWord, cons_append, nil_append, getD_cons_zero,
    getD_cons_succ, UInt8.toNat_ofNat']
  omega

theorem storeWord_loadWord {b : Bytes} (h : 4 ≤ b.length) : storeWord (loadWord b) = b.take 4 := by
  obtain _ | ⟨x, _ | ⟨y, _ | ⟨z, _ | ⟨w, rest⟩⟩⟩⟩ := b
  case cons.cons.cons.cons =>
    have hx := x.toNat_lt
    have hy := y.toNat_lt
    have hz := z.toNat_lt
    have hw := w.toNat_lt
    simp only [storeWord, loadWord, getD_cons_zero, getD_cons_succ, take_succ_cons, take_zero,
      cons.injEq, and_true]
    refine ⟨?_, ?_, ?_, ?_⟩ <;> apply UInt8.toNat_inj.mp <;> rw [UInt8.toNat_ofNat'] <;> omega
  all_goals simp at h

theorem loadWord_lt (b : Bytes) : loadWord b < 2 ^ 32 := by
  have h0 := (b.getD 0 0).toNat_lt
  have h1 := (b.getD 1 0).toNat_lt
  have h2 := (b.getD 2 0).toNat_lt
  have h3 := (b.getD 3 0).toNat_lt
  unfold loadWord
  omega

theorem loadHalf_storeHalf {w : Nat} (h : w < 2 ^ 16) (rest : Bytes) : loadHalf (storeHalf w ++ rest) = w := by
  simp only [loadHalf, storeHalf, cons_append, nil_append, getD_cons_zero, getD_cons_succ,
    UInt8.toNat_ofNat']
  omega

theorem storeHalf_loadHalf {b : Bytes} (h : 2 ≤ b.length) : storeHalf (loadHalf b) = b.take 2 := by
  obtain _ | ⟨x, _ | ⟨y, rest⟩⟩ := b
  case cons.cons =>
    have hx := x.toNat_lt
    have hy := y.toNat_lt
    simp only [storeHalf, loadHalf, getD_cons_zero, getD_cons_succ, take_succ_cons, take_zero,
      cons.injEq, and_true]
    refine ⟨?_, ?_⟩ <;> apply UInt8.toNat_inj.mp <;> rw [UInt8.toNat_ofNat'] <;> omega
  all_goals simp at h

theorem loadHalf_lt (b : Bytes) : loadHalf b < 2 ^ 16 := by
  have h0 := (b.getD 0 0).toNat_lt
  have h1 := (b.getD 1 0).toNat_lt
  unfold loadHalf
  omega

/-- The word at the front of a buffer is read from its first four bytes only. -/
theorem loadWord_append {b : Bytes} (h : 4 ≤ b.length) (rest : Bytes) : loadWord (b ++ rest) = loadWord b := by
  have hget : ∀ i, i < 4 → (b ++ rest).getD i 0 = b.getD i 0 := by
    intro i hi
    rw [getD_eq_getElem?_getD, getD_eq_getElem?_getD, getElem?_append_left (by omega)]
  unfold loadWord
  rw [hget 0 (by omega), hget 1 (by omega), hget 2 (by omega), hget 3 (by omega)]

end LightRpc

import Mathlib.Data.UInt
import Mathlib.Tactic.Common
import Mathlib.Tactic.Ring

/-!
# Little-endian words and slices of byte strings

A word of `w` bytes is written least significant byte first. `slice` is the part of
a byte string a reader looks at; the lemmas say which changes of the whole string a
slice sees. A checksum that is a fold with an injective step sees every substitution
of one element.
-/
namespace ExecutionFabric.Lib

/-! ## Words -/

/-- The `w` low bytes of `n`, least significant first. -/
def leBytes : Nat → Nat → List UInt8
  | 0, _ => []
  | w + 1, n => UInt8.ofNat n :: leBytes w (n / 256)

/-- The value of a little-endian word. -/
def leWord : List UInt8 → Nat
  | [] => 0
  | b :: bs => b.toNat + 256 * leWord bs

@[simp] theorem length_leBytes (w n : Nat) : (leBytes w n).length = w := by
  induction w generalizing n with
  | zero => rfl
  | succ w ih => rw [leBytes, List.length_cons, ih]

theorem leWord_lt (bs : List UInt8) : leWord bs < 256 ^ bs.length := by
  induction bs with
  | nil => exact Nat.one_pos
  | cons b bs ih =>
    rw [leWord, List.length_cons, Nat.pow_succ]
    have hb := b.toNat_lt
    omega

/-- Reading back a word that fits. -/
theorem leWord_leBytes (w n : Nat) (h : n < 256 ^ w) : leWord (leBytes w n) = n := by
  induction w generalizing n with
  | zero =>
    rw [Nat.pow_zero] at h
    rw [leBytes, leWord]
    omega
  | succ w ih =>
    rw [Nat.pow_succ] at h
    rw [leBytes, leWord, ih _ (by omega)]
    simp only [UInt8.toNat_ofNat', Nat.reducePow]
    omega

/-- A word has one representation of each width. -/
theorem leBytes_leWord (bs : List UInt8) : leBytes bs.length (leWord bs) = bs := by
  induction bs with
  | nil => rfl
  | cons b bs ih =>
    have hb := b.toNat_lt
    rw [List.length_cons, leBytes, leWord]
    congr 1
    · apply UInt8.toNat_inj.mp
      simp only [UInt8.toNat_ofNat', Nat.reducePow]
      omega
    · rw [show (b.toNat + 256 * leWord bs) / 256 = leWord bs by omega, ih]

theorem leWord_inj {bs bs' : List UInt8} (hlength : bs.length = bs'.length)
    (h : leWord bs = leWord bs') : bs = bs' := by
  rw [← leBytes_leWord bs, ← leBytes_leWord bs', hlength, h]

/-! ## Slices -/

variable {α : Type}

/-- The `size` elements from `offset` on. -/
def slice (data : List α) (offset size : Nat) : List α := (data.drop offset).take size

@[simp] theorem length_slice (data : List α) (offset size : Nat) :
    (slice data offset size).length = min size (data.length - offset) := by
  rw [slice, List.length_take, List.length_drop]

theorem length_slice_of_le {data : List α} {offset size : Nat} (h : offset + size ≤ data.length) :
    (slice data offset size).length = size := by
  rw [length_slice]
  omega

/-- A slice of the part after `a`. -/
theorem slice_append_right (a b : List α) (offset size : Nat) :
    slice (a ++ b) (a.length + offset) size = slice b offset size := by
  rw [slice, slice, List.drop_append, List.drop_of_length_le (by omega), List.nil_append,
    show a.length + offset - a.length = offset by omega]

/-- A slice of the part before `b`. -/
theorem slice_append_left {a : List α} (b : List α) {offset size : Nat}
    (h : offset + size ≤ a.length) : slice (a ++ b) offset size = slice a offset size := by
  rw [slice, slice, List.drop_append_of_le_length (by omega), List.take_append_of_le_length]
  rw [List.length_drop]
  omega

theorem slice_full (a : List α) : slice a 0 a.length = a := by
  rw [slice, List.drop_zero, List.take_length]

theorem slice_add (data : List α) (offset m n : Nat) :
    slice data offset (m + n) = slice data offset m ++ slice data (offset + m) n := by
  rw [slice, slice, slice, List.take_add, List.drop_drop]

/-- A slice of a cut string that ends before the cut. -/
theorem slice_take {data : List α} {offset size cut : Nat} (h : offset + size ≤ cut) :
    slice (data.take cut) offset size = slice data offset size := by
  rw [slice, slice, List.drop_take, List.take_take, show min size (cut - offset) = size by omega]

/-- The piece of a concatenation between what stands before it and what stands after. -/
theorem slice_middle (a b c : List α) {offset size : Nat} (ha : a.length = offset)
    (hb : b.length = size) : slice (a ++ (b ++ c)) offset size = b := by
  subst ha hb
  have h := slice_append_right a (b ++ c) 0 b.length
  rw [Nat.add_zero] at h
  rw [h, slice_append_left c (by omega), slice_full]

/-! ## One substituted element -/

/-- A substitution outside a slice does not show in it. -/
theorem slice_set_of_not_mem {data : List α} {i offset size : Nat} (b : α)
    (h : i < offset ∨ offset + size ≤ i) :
    slice (data.set i b) offset size = slice data offset size := by
  rw [slice, slice]
  rcases h with h | h
  · rw [List.drop_set_of_lt h]
  · rw [List.drop_set, if_neg (by omega), List.take_set_of_le (by omega)]

/-- A substitution inside a slice is a substitution of the slice. -/
theorem slice_set_of_mem {data : List α} {i offset size : Nat} (b : α) (h : offset ≤ i) :
    slice (data.set i b) offset size = (slice data offset size).set (i - offset) b := by
  rw [slice, slice, List.drop_set, if_neg (by omega), List.take_set]

theorem set_ne {data : List α} {i : Nat} {b : α} (h : i < data.length) (hne : data[i] ≠ b) :
    data.set i b ≠ data := by
  intro he
  have hi : (data.set i b)[i]? = data[i]? := by rw [he]
  rw [List.getElem?_set_self h, List.getElem?_eq_getElem h] at hi
  exact hne (Option.some.inj hi).symm

/-- A fold whose step is injective in the state and in the element tells a list from the same list
with one element substituted. -/
theorem foldl_set_ne {σ : Type} {step : σ → α → σ} (hstate : ∀ b, Function.Injective (step · b))
    (helement : ∀ s, Function.Injective (step s)) (start : σ) {data : List α} {i : Nat} {b : α}
    (h : i < data.length) (hne : data[i] ≠ b) :
    (data.set i b).foldl step start ≠ data.foldl step start := by
  have hfold : ∀ (rest : List α), Function.Injective fun s => rest.foldl step s := by
    intro rest
    induction rest with
    | nil => exact fun _ _ he => he
    | cons c rest ih => exact fun s s' he => hstate c (ih he)
  induction data generalizing i start with
  | nil => exact absurd h (Nat.not_lt_zero i)
  | cons c rest ih =>
    cases i with
    | zero =>
      rw [List.set_cons_zero, List.foldl_cons, List.foldl_cons]
      intro he
      exact hne (helement start (hfold rest he)).symm
    | succ i =>
      rw [List.set_cons_succ, List.foldl_cons, List.foldl_cons]
      exact ih (step start c) (by simpa using h) (by simpa using hne)

end ExecutionFabric.Lib

import Mathlib.Data.Set.Function
import Mathlib.Order.Interval.Set.Defs
import Mathlib.Tactic.Linarith
import ExecutionFabric.Model.Identity

/-!
# Derived identities within their bounds

FNV-1a is not injective, but three bytes are seen from every state: two states that
differ in their low byte alone are so far apart after one multiplication by the prime
that the next byte cannot bring them together, and neither can the one after it.
-/
namespace ExecutionFabric

/-! ## Three bytes -/

/-- The prime is `2 ^ 40 + 435`, so its multiples by small numbers leave the low bytes far apart. -/
theorem small_combination_zero {d e r k : Int} (hd : -255 ≤ d ∧ d ≤ 255)
    (he : -510 ≤ e ∧ e ≤ 510) (hr : -255 ≤ r ∧ r ≤ 255)
    (h : (d * 1099511628211 + e) * 1099511628211 - r = 18446744073709551616 * k) :
    d = 0 ∧ e = 0 := by
  have hsplit : (870 * d + e) * 1099511627776 + 189225 * d + 435 * e - r =
      18446744073709551616 * (k - 65536 * d) := by linarith
  have hwrap : k - 65536 * d = 0 := by omega
  rw [hwrap, mul_zero] at hsplit
  have hhigh : 870 * d + e = 0 := by omega
  constructor <;> omega

/-- Two states that agree above the low byte, before and after a multiplication by the prime and a
change of the low byte, cannot agree above the low byte after the next multiplication. -/
theorem apart_after_prime {x x' y y' : Nat} (hx : x / 256 = x' / 256)
    (hy : y / 256 = x * 1099511628211 % 2 ^ 64 / 256)
    (hy' : y' / 256 = x' * 1099511628211 % 2 ^ 64 / 256)
    (h : y * 1099511628211 % 2 ^ 64 / 256 = y' * 1099511628211 % 2 ^ 64 / 256) :
    x = x' ∧ y = y' := by
  obtain ⟨hd, he⟩ := small_combination_zero (d := (x : Int) - x')
    (e := ((y : Int) - (x * 1099511628211 % 2 ^ 64 : Nat)) -
      (y' - (x' * 1099511628211 % 2 ^ 64 : Nat)))
    (r := (y * 1099511628211 % 2 ^ 64 : Nat) - (y' * 1099511628211 % 2 ^ 64 : Nat))
    (k := 1099511628211 * ((x * 1099511628211 / 2 ^ 64 : Nat) -
        (x' * 1099511628211 / 2 ^ 64 : Nat)) +
      ((y * 1099511628211 / 2 ^ 64 : Nat) - (y' * 1099511628211 / 2 ^ 64 : Nat)))
    (by omega) (by omega) (by omega) (by omega)
  omega

section Steps

variable {h h' : UInt64}

/-- A byte enters the state at its low end. -/
theorem xor_byte_div (h : UInt64) (b : UInt8) :
    (h ^^^ b.toUInt64).toNat / 256 = h.toNat / 256 := by
  have hb : b.toNat / 2 ^ 8 = 0 := Nat.div_eq_of_lt b.toNat_lt
  rw [UInt64.toNat_xor, UInt8.toNat_toUInt64, show (256 : Nat) = 2 ^ 8 from rfl,
    Nat.xor_div_two_pow, hb, Nat.xor_zero]

theorem toNat_fnv1aStep (h : UInt64) (b : UInt8) :
    (fnv1aStep h b).toNat = (h ^^^ b.toUInt64).toNat * 1099511628211 % 2 ^ 64 := by
  rw [fnv1aStep, UInt64.toNat_mul]
  rfl

/-- The inverse of the prime modulo `2 ^ 64`. -/
theorem mul_fnvPrime_injective : Function.Injective fun x : UInt64 => x * fnvPrime := by
  intro x y hxy
  have hinverse : fnvPrime * 0xce965057aff6957b = 1 := by decide
  calc x = x * fnvPrime * 0xce965057aff6957b := by
        rw [UInt64.mul_assoc, hinverse, UInt64.mul_one]
    _ = y * fnvPrime * 0xce965057aff6957b := congrArg (· * 0xce965057aff6957b) hxy
    _ = y := by rw [UInt64.mul_assoc, hinverse, UInt64.mul_one]

theorem xor_byte_injective (h : UInt64) {b b' : UInt8}
    (hxor : h ^^^ b.toUInt64 = h ^^^ b'.toUInt64) : b = b' := by
  have hbytes : b.toUInt64 = b'.toUInt64 := by
    calc b.toUInt64 = h ^^^ (h ^^^ b.toUInt64) := by
          rw [← UInt64.xor_assoc, UInt64.xor_self, UInt64.zero_xor]
      _ = h ^^^ (h ^^^ b'.toUInt64) := by rw [hxor]
      _ = b'.toUInt64 := by rw [← UInt64.xor_assoc, UInt64.xor_self, UInt64.zero_xor]
  apply UInt8.toNat_inj.mp
  simpa using congrArg UInt64.toNat hbytes

/-- Three bytes are seen from every state. -/
theorem fnv1a_three_bytes {a b c a' b' c' : UInt8}
    (heq : [a, b, c].foldl fnv1aStep h = [a', b', c'].foldl fnv1aStep h) :
    a = a' ∧ b = b' ∧ c = c' := by
  have hlast : fnv1aStep (fnv1aStep h a) b ^^^ c.toUInt64 =
      fnv1aStep (fnv1aStep h a') b' ^^^ c'.toUInt64 := mul_fnvPrime_injective heq
  have hthird : (fnv1aStep (fnv1aStep h a) b).toNat / 256 =
      (fnv1aStep (fnv1aStep h a') b').toNat / 256 := by
    rw [← xor_byte_div (fnv1aStep (fnv1aStep h a) b) c, hlast, xor_byte_div]
  rw [toNat_fnv1aStep, toNat_fnv1aStep] at hthird
  obtain ⟨hfirst, hsecond⟩ := apart_after_prime
    ((xor_byte_div h a).trans (xor_byte_div h a').symm)
    ((xor_byte_div _ b).trans (congrArg (· / 256) (toNat_fnv1aStep h a)))
    ((xor_byte_div _ b').trans (congrArg (· / 256) (toNat_fnv1aStep h a'))) hthird
  obtain rfl := xor_byte_injective h (UInt64.toNat_inj.mp hfirst)
  obtain rfl := xor_byte_injective _ (UInt64.toNat_inj.mp hsecond)
  exact ⟨rfl, rfl, xor_byte_injective _ hlast⟩

/-- Trailing zero bytes tell states apart. -/
theorem foldl_fnv1aStep_zeros_injective (n : Nat) :
    Function.Injective fun h => (List.replicate n (0 : UInt8)).foldl fnv1aStep h := by
  induction n with
  | zero => exact fun _ _ heq => heq
  | succ n ih =>
    intro h h' heq
    have hstep : fnv1aStep h 0 = fnv1aStep h' 0 := ih heq
    have hxor : h ^^^ UInt8.toUInt64 0 = h' ^^^ UInt8.toUInt64 0 := mul_fnvPrime_injective hstep
    rwa [show UInt8.toUInt64 0 = 0 from rfl, UInt64.xor_zero, UInt64.xor_zero] at hxor

end Steps

/-! ## Words -/

/-- The bytes of a word below `2 ^ 24`. -/
theorem littleEndian_word {n : Nat} (hn : n < 2 ^ 24) :
    littleEndian (word n) = [UInt8.ofNat n, UInt8.ofNat (n / 256), UInt8.ofNat (n / 65536)] ++
      List.replicate 5 0 := by
  have hword : (word n).toNat = n := UInt64.toNat_ofNat_of_lt' (by rw [UInt64.size]; omega)
  have hbyte : ∀ k : Nat, k < 64 →
      (word n >>> UInt64.ofNat k).toUInt8 = UInt8.ofNat (n / 2 ^ k) := by
    intro k hk
    apply UInt8.toNat_inj.mp
    rw [UInt64.toNat_toUInt8, UInt64.toNat_shiftRight, hword,
      UInt64.toNat_ofNat_of_lt' (by rw [UInt64.size]; omega), Nat.mod_eq_of_lt hk,
      Nat.shiftRight_eq_div_pow, UInt8.toNat_ofNat']
  have hzero : ∀ k : Nat, 24 ≤ k → k < 64 → (word n >>> UInt64.ofNat k).toUInt8 = 0 := by
    intro k hlow hk
    rw [hbyte k hk, Nat.div_eq_of_lt (Nat.lt_of_lt_of_le hn (Nat.pow_le_pow_right (by omega) hlow))]
    rfl
  have hfirst : (word n).toUInt8 = UInt8.ofNat n := by
    apply UInt8.toNat_inj.mp
    rw [UInt64.toNat_toUInt8, hword, UInt8.toNat_ofNat']
  show [(word n).toUInt8, (word n >>> UInt64.ofNat 8).toUInt8, (word n >>> UInt64.ofNat 16).toUInt8,
    (word n >>> UInt64.ofNat 24).toUInt8, (word n >>> UInt64.ofNat 32).toUInt8,
    (word n >>> UInt64.ofNat 40).toUInt8, (word n >>> UInt64.ofNat 48).toUInt8,
    (word n >>> UInt64.ofNat 56).toUInt8] = _
  rw [hfirst, hbyte 8 (by omega), hbyte 16 (by omega), hzero 24 (by omega) (by omega),
    hzero 32 (by omega) (by omega), hzero 40 (by omega) (by omega),
    hzero 48 (by omega) (by omega), hzero 56 (by omega) (by omega)]
  rfl

/-- From every state, the words below `2 ^ 24` hash apart. -/
theorem hashU64_injOn (h : UInt64) :
    Set.InjOn (fun n => hashU64 h (word n)) (Set.Iio (2 ^ 24)) := by
  intro n hn n' hn' heq
  have hn : n < 2 ^ 24 := hn
  have hn' : n' < 2 ^ 24 := hn'
  have hfold : (littleEndian (word n)).foldl fnv1aStep h =
      (littleEndian (word n')).foldl fnv1aStep h := heq
  rw [littleEndian_word hn, littleEndian_word hn', List.foldl_append, List.foldl_append] at hfold
  obtain ⟨hfirst, hsecond, hthird⟩ :=
    fnv1a_three_bytes (foldl_fnv1aStep_zeros_injective 5 hfold)
  have hbyte : ∀ {a b : Nat}, UInt8.ofNat a = UInt8.ofNat b → a % 256 = b % 256 := by
    intro a b hab
    simpa using congrArg UInt8.toNat hab
  have h0 := hbyte hfirst
  have h1 := hbyte hsecond
  have h2 := hbyte hthird
  omega

theorem derive_concat (salt : UInt64) (inputs : List UInt64) (v : UInt64) :
    derive salt (inputs ++ [v]) = hashU64 (derive salt inputs) v := by
  rw [derive, derive, List.foldl_append, List.foldl_cons, List.foldl_nil]

/-- A derivation whose last input is a counter is injective in it below `2 ^ 24`. -/
theorem derive_injOn {d : IdDomain} (salt : UInt64) (inputs : List UInt64) {f : Nat → Id d}
    (hf : ∀ n, (f n).value = derive salt (inputs ++ [word n])) : Set.InjOn f (Set.Iio (2 ^ 24)) := by
  intro n hn n' hn' heq
  refine hashU64_injOn (derive salt inputs) hn hn' ?_
  have hvalue := congrArg Id.value heq
  rw [hf, hf, derive_concat, derive_concat] at hvalue
  exact hvalue

/-- For fixed other inputs, the identities derived from counters below `2 ^ 24` are distinct. -/
theorem derived_ids_injective :
    (∀ e, Set.InjOn (deriveActionId e) (Set.Iio (2 ^ 24))) ∧
    (∀ e, Set.InjOn (deriveProgressId e) (Set.Iio (2 ^ 24))) ∧
    (∀ e, Set.InjOn (deriveCheckpointId e) (Set.Iio (2 ^ 24))) ∧
    (∀ e, Set.InjOn (deriveRecoveryId e) (Set.Iio (2 ^ 24))) ∧
    (∀ e, Set.InjOn (deriveIncarnationId e) (Set.Iio (2 ^ 24))) ∧
    (∀ e w b, Set.InjOn (deriveLeaseId e w b) (Set.Iio (2 ^ 24))) ∧
    (∀ e incarnation progress,
      Set.InjOn (deriveContinuationId e incarnation progress) (Set.Iio (2 ^ 24))) ∧
    ∀ store, Set.InjOn (deriveExecutionId store) (Set.Iio (2 ^ 24)) :=
  ⟨fun e => derive_injOn saltAction [e.value] fun _ => rfl,
    fun e => derive_injOn saltProgress [e.value] fun _ => rfl,
    fun e => derive_injOn saltCheckpoint [e.value] fun _ => rfl,
    fun e => derive_injOn saltRecovery [e.value] fun _ => rfl,
    fun e => derive_injOn saltIncarnation [e.value] fun _ => rfl,
    fun e w b => derive_injOn saltLease [e.value, w.value, b.value] fun _ => rfl,
    fun e incarnation progress =>
      derive_injOn saltContinuation [e.value, word incarnation, word progress] fun _ => rfl,
    fun store => derive_injOn saltExecution [store.value] fun _ => rfl⟩

end ExecutionFabric

import OpenFHE.BinFHE.LWEEncryption
import OpenFHE.Encoding.SlotPermutation
import Mathlib.Algebra.BigOperators.ModEq

/-!
# Logarithms of the odd exponents

Every odd number below twice the dimension is a power of five or the negative of one.  `m_logGen`
tabulates which, and the coordinates of a mask are sorted by it.
-/

namespace OpenFHE
namespace BinFHE

open Core Foundation NativeInteger Encoding

namespace RingGSWAccumulatorLMKCDEY

/-- One pass of the loop that fills `m_logGen`; the state holds `gPow`. -/
def logGenStep (M : Nat) (s : Nat × List Int) (i : Nat) : Nat × List Int :=
  let gPow := usint (s.1 * 5 : Nat) % M
  (gPow, (s.2.set gPow (int32 i)).set (M - gPow) (int32 (-i)))

/-- `m_logGen`: zero for one, and the order for minus one. -/
def preComputeLogGen (N : Nat) : List Int :=
  let M := usint (2 * N : Nat)
  ((List.range (N / 2 - 1)).foldl (fun s t => logGenStep M s (t + 1))
    (1, (List.replicate M 0).set (M - 1) (int32 M))).2

/-- `-a[i]`, rounded up to an odd number. -/
def oddMask (N : Nat) (a : NativeVectorT) (i : Nat) : Option Nat := do
  let x <- a.data[i]?
  return usint (modSubFast 0 x (usint (2 * N : Nat)) : Nat) ||| 1

/-- Coordinate `i` goes to the bucket of its logarithm. -/
def permuteStep (N : Nat) (logGen : List Int) (a : NativeVectorT) (permuteMap : Int -> List Nat)
    (i : Nat) : Option (Int -> List Nat) := do
  let aIOdd <- oddMask N a i
  let index <- logGen[aIOdd]?
  return Function.update permuteMap index (permuteMap index ++ [i])

/-- The buckets; those that are never reached are empty. -/
def permuteMap (N : Nat) (logGen : List Int) (a : NativeVectorT) : Option (Int -> List Nat) :=
  (List.range a.data.length).foldlM (permuteStep N logGen a) fun _ => []

/-! ## The table -/

section Table

variable {d : Nat} (hd : d + 1 <= 24)

def fivePower (d e : Nat) : Nat := 5 ^ e % 2 ^ (d + 2)

theorem fivePower_val (d e : Nat) : fivePower d e = ((5 : ZMod (2 ^ (d + 2))) ^ e).val := by
  rw [fivePower, <- ZMod.val_natCast, Nat.cast_pow, Nat.cast_ofNat]

theorem fivePower_lt (d e : Nat) : fivePower d e < 2 ^ (d + 2) := Nat.mod_lt _ (by positivity)

theorem fivePower_eq (d e : Nat) : fivePower d e = (fiveUnit d ^ e : ZMod (2 ^ (d + 2))).val := by
  rw [fivePower_val, coe_fiveUnit]

theorem fivePower_odd (d e : Nat) : fivePower d e % 2 = 1 := by
  rw [fivePower_eq, <- Units.val_pow_eq_pow_val]
  exact val_odd _

theorem fivePower_injOn {a b : Nat} (ha : a < 2 ^ d) (hb : b < 2 ^ d)
    (h : fivePower d a = fivePower d b) : a = b := by
  apply fiveUnit_pow_injOn ha hb
  apply Units.ext
  rw [Units.val_pow_eq_pow_val, Units.val_pow_eq_pow_val, coe_fiveUnit]
  rw [fivePower_val, fivePower_val] at h
  exact ZMod.val_injective _ h

theorem fivePower_add_ne (a b : Nat) : fivePower d a + fivePower d b ≠ 2 ^ (d + 2) := by
  intro h
  apply fiveUnit_pow_ne_neg (d := d) a b
  apply Units.ext
  rw [Units.val_neg, Units.val_pow_eq_pow_val, Units.val_pow_eq_pow_val, coe_fiveUnit,
    eq_neg_iff_add_eq_zero]
  have hcast := congrArg (Nat.cast : Nat -> ZMod (2 ^ (d + 2))) h
  rw [Nat.cast_add, fivePower_val, fivePower_val, ZMod.natCast_zmod_val, ZMod.natCast_zmod_val,
    ZMod.natCast_self] at hcast
  exact hcast

theorem fivePower_zero : fivePower d 0 = 1 := by
  have hlt : 1 < 2 ^ (d + 2) := Nat.one_lt_two_pow (by omega)
  have : Fact (1 < 2 ^ (d + 2)) := ⟨hlt⟩
  rw [fivePower_val, pow_zero, ZMod.val_one]

theorem fivePower_succ (e : Nat) : fivePower d (e + 1) = fivePower d e * 5 % 2 ^ (d + 2) := by
  have hcast : ((fivePower d e * 5 : Nat) : ZMod (2 ^ (d + 2))) =
      (5 : ZMod (2 ^ (d + 2))) ^ (e + 1) := by
    rw [Nat.cast_mul, fivePower_val, ZMod.natCast_zmod_val, Nat.cast_ofNat,
      pow_succ (5 : ZMod (2 ^ (d + 2)))]
  rw [<- ZMod.val_natCast, hcast, fivePower_val]

def negativeCode (d e : Nat) : Int := if e = 0 then 2 ^ (d + 2) else -e

structure LogTable (d c : Nat) (s : Nat × List Int) : Prop where
  gPow_eq : s.1 = fivePower d c
  length_eq : s.2.length = 2 ^ (d + 2)
  positive : forall e, e <= c -> s.2[fivePower d e]? = some (e : Int)
  negative : forall e, e <= c -> s.2[2 ^ (d + 2) - fivePower d e]? = some (negativeCode d e)

include hd

theorem logGenStep_table {c : Nat} (hc : c + 1 < 2 ^ d) {s : Nat × List Int}
    (hs : LogTable d c s) : LogTable d (c + 1) (logGenStep (2 ^ (d + 2)) s (c + 1)) := by
  have hle : 2 ^ d <= 2 ^ 23 := Nat.pow_le_pow_right (by decide) (by omega)
  have hpow : 2 ^ (d + 2) = 4 * 2 ^ d := by
    rw [pow_add]
    ring
  have hlt := fivePower_lt d c
  have hgPow : usint (s.1 * 5 : Nat) % 2 ^ (d + 2) = fivePower d (c + 1) := by
    have hsmall : fivePower d c * 5 % 2 ^ 32 = fivePower d c * 5 := Nat.mod_eq_of_lt (by omega)
    rw [hs.gPow_eq, usint_natCast, hsmall, fivePower_succ]
  have hcount : int32 ((c + 1 : Nat) : Int) = (c + 1 : Nat) := int32_natCast (by omega)
  have hminus : int32 (-((c + 1 : Nat) : Int)) = -((c + 1 : Nat) : Int) := by
    unfold int32
    exact Int.bmod_eq_of_le (by omega) (by omega)
  have hnext := fivePower_lt d (c + 1)
  have hodd := fivePower_odd d (c + 1)
  rw [logGenStep, hgPow, hcount, hminus]
  refine ⟨rfl, ?_, fun e he => ?_, fun e he => ?_⟩
  · rw [List.length_set, List.length_set, hs.length_eq]
  · have hne := fivePower_add_ne (d := d) (c + 1) e
    have hother := fivePower_lt d e
    rw [List.getElem?_set_ne (by omega)]
    rcases Nat.lt_or_eq_of_le he with hlow | rfl
    · have hdistinct : fivePower d (c + 1) ≠ fivePower d e := fun h => by
        have := fivePower_injOn (by omega) (by omega) h
        omega
      rw [List.getElem?_set_ne hdistinct]
      exact hs.positive e (by omega)
    · rw [List.getElem?_set_self (by rw [hs.length_eq]; exact hnext)]
  · have hother := fivePower_lt d e
    rcases Nat.lt_or_eq_of_le he with hlow | rfl
    · have hdistinct : fivePower d (c + 1) ≠ fivePower d e := fun h => by
        have := fivePower_injOn (by omega) (by omega) h
        omega
      have hne := fivePower_add_ne (d := d) (c + 1) e
      rw [List.getElem?_set_ne (by omega), List.getElem?_set_ne (by omega)]
      exact hs.negative e (by omega)
    · rw [List.getElem?_set_self (by rw [List.length_set, hs.length_eq]; omega), negativeCode,
        if_neg (Nat.succ_ne_zero c)]

theorem preComputeLogGen_spec :
    (preComputeLogGen (2 ^ (d + 1))).length = 2 ^ (d + 2) ∧
    (forall e, e < 2 ^ d -> (preComputeLogGen (2 ^ (d + 1)))[fivePower d e]? = some (e : Int)) ∧
    forall e, e < 2 ^ d ->
      (preComputeLogGen (2 ^ (d + 1)))[2 ^ (d + 2) - fivePower d e]? = some (negativeCode d e) := by
  have hle : 2 ^ d <= 2 ^ 23 := Nat.pow_le_pow_right (by decide) (by omega)
  have hpos := Nat.two_pow_pos d
  have hpow : 2 ^ (d + 2) = 4 * 2 ^ d := by
    rw [pow_add]
    ring
  have hM : usint (2 * 2 ^ (d + 1) : Nat) = 2 ^ (d + 2) := by
    rw [<- pow_succ', usint_natCast, Nat.mod_eq_of_lt (by omega)]
  have hhalf : 2 ^ (d + 1) / 2 = 2 ^ d := by
    rw [pow_succ, Nat.mul_div_cancel _ (by decide)]
  have hrun : forall c, c < 2 ^ d -> LogTable d c
      ((List.range c).foldl (fun s t => logGenStep (2 ^ (d + 2)) s (t + 1))
        (1, (List.replicate (2 ^ (d + 2)) 0).set (2 ^ (d + 2) - 1)
          (int32 (2 ^ (d + 2) : Nat)))) := by
    intro c hc
    induction c with
    | zero =>
        refine ⟨fivePower_zero.symm, by simp, fun e he => ?_, fun e he => ?_⟩
        · rw [Nat.le_zero.mp he, fivePower_zero, List.range_zero, List.foldl_nil,
            List.getElem?_set_ne (by omega), List.getElem?_replicate, if_pos (by omega)]
          rfl
        · rw [Nat.le_zero.mp he, fivePower_zero, List.range_zero, List.foldl_nil,
            List.getElem?_set_self (by rw [List.length_replicate]; omega), negativeCode, if_pos rfl,
            int32_natCast (by omega), Nat.cast_pow]
          rfl
    | succ c ih =>
        rw [List.range_succ, List.foldl_append, List.foldl_cons, List.foldl_nil]
        exact logGenStep_table hd hc (ih (by omega))
  have hfinal := hrun (2 ^ d - 1) (by omega)
  have htable : preComputeLogGen (2 ^ (d + 1)) =
      ((List.range (2 ^ d - 1)).foldl (fun s t => logGenStep (2 ^ (d + 2)) s (t + 1))
        (1, (List.replicate (2 ^ (d + 2)) 0).set (2 ^ (d + 2) - 1)
          (int32 (2 ^ (d + 2) : Nat)))).2 := by
    rw [preComputeLogGen, hM, hhalf]
  rw [htable]
  exact ⟨hfinal.length_eq, fun e he => hfinal.positive e (by omega),
    fun e he => hfinal.negative e (by omega)⟩

end Table

/-! ## Odd numbers -/

/-- The logarithm of an odd number. -/
inductive IsCode (d : Nat) : Nat -> Int -> Prop where
  | positive (e : Nat) (he : e < 2 ^ d) : IsCode d (fivePower d e) e
  | negative (e : Nat) (he : e < 2 ^ d) : IsCode d (2 ^ (d + 2) - fivePower d e) (negativeCode d e)

theorem slotUnit_surjective {d : Nat} (u : (ZMod (2 ^ (d + 2)))ˣ) :
    exists i, i < 2 ^ (d + 1) ∧ slotUnit d i = u := by
  have himage : (Finset.range (2 ^ (d + 1))).image (slotUnit d) = Finset.univ := by
    apply Finset.eq_univ_of_card
    rw [Finset.card_image_of_injOn, Finset.card_range, ZMod.card_units_eq_totient,
      Nat.totient_prime_pow Nat.prime_two (by omega)]
    · rw [show d + 2 - 1 = d + 1 by omega, Nat.mul_one]
    · intro i hi j hj h
      exact slotUnit_injOn (Finset.mem_range.mp hi) (Finset.mem_range.mp hj) h
  rcases Finset.mem_image.mp (himage ▸ Finset.mem_univ u) with ⟨i, hi, rfl⟩
  exact ⟨i, Finset.mem_range.mp hi, rfl⟩

theorem odd_cases {d v : Nat} (hodd : v % 2 = 1) (hv : v < 2 ^ (d + 2)) :
    exists e, e < 2 ^ d ∧ (v = fivePower d e ∨ v = 2 ^ (d + 2) - fivePower d e) := by
  have hcoprime : Nat.Coprime v (2 ^ (d + 2)) :=
    Nat.Coprime.pow_right _ (Nat.coprime_two_right.mpr (Nat.odd_iff.mpr hodd))
  rcases slotUnit_surjective (ZMod.unitOfCoprime v hcoprime) with ⟨i, hi, hslot⟩
  have hval : v = ((slotUnit d i : (ZMod (2 ^ (d + 2)))ˣ) : ZMod (2 ^ (d + 2))).val := by
    rw [hslot, ZMod.coe_unitOfCoprime, ZMod.val_natCast, Nat.mod_eq_of_lt hv]
  rcases Nat.lt_or_ge i (2 ^ d) with hlow | hhigh
  · refine ⟨i, hlow, Or.inl ?_⟩
    rw [hval, slotUnit_low hlow, Units.val_pow_eq_pow_val, coe_fiveUnit, fivePower_val]
  · rw [pow_succ] at hi
    have hc : i - 2 ^ d < 2 ^ d := by omega
    have hsplit : i = (i - 2 ^ d) + 2 ^ d := by omega
    have hpower := fivePower_odd d (i - 2 ^ d)
    have hne : (5 : ZMod (2 ^ (d + 2))) ^ (i - 2 ^ d) ≠ 0 := by
      intro hzero
      rw [fivePower_val, hzero, ZMod.val_zero] at hpower
      omega
    have : NeZero ((5 : ZMod (2 ^ (d + 2))) ^ (i - 2 ^ d)) := ⟨hne⟩
    refine ⟨i - 2 ^ d, hc, Or.inr ?_⟩
    rw [hval, hsplit, slotUnit_high hc, Units.val_neg, Units.val_pow_eq_pow_val, coe_fiveUnit,
      ZMod.val_neg_of_ne_zero, fivePower_val, <- hsplit]

theorem logGen_code {d v : Nat} (hd : d + 1 <= 24) (hodd : v % 2 = 1) (hv : v < 2 ^ (d + 2)) :
    exists c, (preComputeLogGen (2 ^ (d + 1)))[v]? = some c ∧ IsCode d v c := by
  rcases preComputeLogGen_spec hd with ⟨_, hpositive, hnegative⟩
  rcases odd_cases hodd hv with ⟨e, he, rfl | rfl⟩
  · exact ⟨e, hpositive e he, .positive e he⟩
  · exact ⟨negativeCode d e, hnegative e he, .negative e he⟩

/-! ## The buckets -/

/-- The coordinates with the logarithm `c`, in their order. -/
def bucket (index : Nat -> Int) (n : Nat) (c : Int) : List Nat :=
  (List.range n).filter fun i => index i = c

theorem bucket_succ (index : Nat -> Int) (n : Nat) (c : Int) :
    bucket index (n + 1) c = bucket index n c ++ if index n = c then [n] else [] := by
  rw [bucket, List.range_succ, List.filter_append, bucket]
  congr 1
  by_cases h : index n = c
  · rw [if_pos h, List.filter_singleton, decide_eq_true h]
    rfl
  · rw [if_neg h, List.filter_singleton, decide_eq_false h]
    rfl

theorem permuteMap_spec {d n : Nat} (hd : d + 1 <= 24) {a : NativeVectorT}
    (ha : Residues n (2 ^ (d + 2)) a.data) :
    exists (index : Nat -> Int) (v : Nat -> Nat) (map : Int -> List Nat),
      permuteMap (2 ^ (d + 1)) (preComputeLogGen (2 ^ (d + 1))) a = some map ∧
      (forall c, map c = bucket index n c) ∧
      forall i, i < n -> oddMask (2 ^ (d + 1)) a i = some (v i) ∧ v i < 2 ^ (d + 2) ∧
        IsCode d (v i) (index i) := by
  have hle : 2 ^ (d + 1) <= 2 ^ 24 := Nat.pow_le_pow_right (by decide) hd
  have hpow : 2 * 2 ^ (d + 1) = 2 ^ (d + 2) := (pow_succ' 2 (d + 1)).symm
  have hM : usint (2 * 2 ^ (d + 1) : Nat) = 2 ^ (d + 2) := by
    rw [usint_natCast, Nat.mod_eq_of_lt (by omega), hpow]
  have hcodes (i : Nat) : exists v c, i < n -> oddMask (2 ^ (d + 1)) a i = some v ∧
      v < 2 ^ (d + 2) ∧ (preComputeLogGen (2 ^ (d + 1)))[v]? = some c ∧ IsCode d v c := by
    by_cases hi : i < n
    · rcases ha.exists_entry hi with ⟨x, hx, hlt⟩
      have hneg := (NativeVector.represents_sub_fast (by omega : 2 ^ (d + 2) < 2 ^ 60)
        (by omega : 0 < 2 ^ (d + 2)) hlt).1
      obtain ⟨y, hy⟩ : exists y, y = modSubFast 0 x (2 ^ (d + 2)) := ⟨_, rfl⟩
      rw [<- hy] at hneg
      have hsmall : usint (y : Int) = y := by
        rw [usint_natCast, Nat.mod_eq_of_lt (by omega)]
      have hor : y ||| 1 < 2 ^ (d + 2) := Nat.or_lt_two_pow hneg (Nat.one_lt_two_pow (by omega))
      have hodd : (y ||| 1) % 2 = 1 := Nat.or_mod_two_eq_one.mpr (Or.inr rfl)
      rcases logGen_code hd hodd hor with ⟨c, hc, hcode⟩
      refine ⟨y ||| 1, c, fun _ => ⟨?_, hor, hc, hcode⟩⟩
      rw [oddMask, hx]
      simp only [Option.bind_eq_bind, Option.bind_some]
      rw [hM, <- hy, hsmall]
      rfl
    · exact ⟨0, 0, fun h => absurd h hi⟩
  choose v index hindex using hcodes
  have hrun := foldlM_range_spec (n := n) (s := fun _ => [])
    (f := permuteStep (2 ^ (d + 1)) (preComputeLogGen (2 ^ (d + 1))) a)
    (fun c map => forall e, map e = bucket index c e) (fun e => rfl) ?_
  · rcases hrun with ⟨map, hmap, hbuckets⟩
    refine ⟨index, v, map, ?_, hbuckets, fun i hi => ⟨(hindex i hi).1, (hindex i hi).2.1,
      (hindex i hi).2.2.2⟩⟩
    rw [permuteMap, ha.1]
    exact hmap
  · intro i hi map hmap
    rcases hindex i hi with ⟨hodd, _, hget, _⟩
    refine ⟨Function.update map (index i) (map (index i) ++ [i]), ?_, fun e => ?_⟩
    · rw [permuteStep, hodd]
      simp only [Option.bind_eq_bind, Option.bind_some, hget]
      rfl
    · rw [bucket_succ]
      by_cases he : index i = e
      · rw [<- he, Function.update_self, hmap, if_pos rfl]
      · rw [Function.update_of_ne (Ne.symm he), hmap, if_neg he, List.append_nil]

def bucketSum (value : Nat -> Int) (l : List Nat) : Int := (l.map value).sum

theorem natCast_ne_negativeCode {d e : Nat} (he : e < 2 ^ d) (f : Nat) :
    (e : Int) ≠ negativeCode d f := by
  have hpow : 2 ^ (d + 2) = 4 * 2 ^ d := by
    rw [pow_add]
    ring
  rw [negativeCode]
  split
  · intro h
    have hnat : e = 2 ^ (d + 2) := by exact_mod_cast h
    omega
  · omega

theorem negativeCode_inj {d e f : Nat} (h : negativeCode d e = negativeCode d f) : e = f := by
  have hpos : (0 : Int) < 2 ^ (d + 2) := by positivity
  rw [negativeCode, negativeCode] at h
  split at h <;> split at h <;> omega

theorem sum_buckets {d : Nat} {index : Nat -> Int} {weight value : Nat -> Int}
    {positive negative : Nat -> Int} {n : Nat}
    (h : forall i, i < n -> exists e : Nat, e < 2 ^ d ∧
      ((index i = e ∧ weight i = positive e) ∨
        (index i = negativeCode d e ∧ weight i = negative e))) :
    ∑ e ∈ Finset.range (2 ^ d), positive e * bucketSum value (bucket index n e) +
        ∑ e ∈ Finset.range (2 ^ d), negative e *
          bucketSum value (bucket index n (negativeCode d e)) =
      ∑ i ∈ Finset.range n, weight i * value i := by
  induction n with
  | zero =>
      simp [bucket, bucketSum]
  | succ n ih =>
      have hstep (c : Int) : bucketSum value (bucket index (n + 1) c) =
          bucketSum value (bucket index n c) + if index n = c then value n else 0 := by
        rw [bucket_succ, bucketSum, List.map_append, List.sum_append, bucketSum]
        split <;> simp
      have ih' := ih fun i hi => h i (by omega)
      simp only [hstep, mul_add, Finset.sum_add_distrib]
      rw [Finset.sum_range_succ, <- ih', add_add_add_comm]
      congr 1
      rcases h n (by omega) with ⟨e, he, ⟨hindex, hweight⟩ | ⟨hindex, hweight⟩⟩
      · rw [hindex, hweight, Finset.sum_eq_single_of_mem e (Finset.mem_range.mpr he),
          Finset.sum_eq_zero, if_pos rfl, add_zero]
        · intro f hf
          rw [if_neg (natCast_ne_negativeCode he f), mul_zero]
        · intro f _ hne
          rw [if_neg (by omega), mul_zero]
      · rw [hindex, hweight, Finset.sum_eq_zero, zero_add,
          Finset.sum_eq_single_of_mem e (Finset.mem_range.mpr he), if_pos rfl]
        · intro f hf hne
          rw [if_neg fun heq => hne (negativeCode_inj heq.symm),
            mul_zero]
        · intro f hf
          rw [if_neg (natCast_ne_negativeCode (Finset.mem_range.mp hf) e).symm, mul_zero]


theorem IsCode.weight {d v : Nat} {c : Int} (h : IsCode d v c) : exists (e : Nat) (w : Int),
    e < 2 ^ d ∧ ((c = e ∧ w = 5 ^ e) ∨ (c = negativeCode d e ∧ w = -5 ^ e)) ∧
      w ≡ v [ZMOD (2 ^ (d + 2) : Nat)] := by
  have hpower (e : Nat) : ((fivePower d e : Nat) : ZMod (2 ^ (d + 2))) = 5 ^ e := by
    rw [fivePower_val, ZMod.natCast_zmod_val]
  cases h with
  | positive e he =>
      refine ⟨e, 5 ^ e, he, Or.inl ⟨rfl, rfl⟩, ?_⟩
      rw [<- ZMod.intCast_eq_intCast_iff, Int.cast_natCast, hpower]
      push_cast
      rfl
  | negative e he =>
      refine ⟨e, -5 ^ e, he, Or.inr ⟨rfl, rfl⟩, ?_⟩
      rw [<- ZMod.intCast_eq_intCast_iff, Int.cast_natCast, Nat.cast_sub (fivePower_lt d e).le,
        ZMod.natCast_self, hpower, zero_sub]
      push_cast
      rfl

theorem sum_loops (weight value positive negative : Nat -> Int) {d n : Nat} {index : Nat -> Int}
    (h : forall i, i < n -> exists e : Nat, e < 2 ^ d ∧
      ((index i = e ∧ weight i = positive e) ∨
        (index i = negativeCode d e ∧ weight i = negative e))) :
    ∑ t ∈ Finset.range (2 ^ d - 1), positive (t + 1) *
          bucketSum value (bucket index n (t + 1 : Nat)) +
        positive 0 * bucketSum value (bucket index n 0) +
      (∑ t ∈ Finset.range (2 ^ d - 1), negative (t + 1) *
          bucketSum value (bucket index n (-(t + 1 : Nat))) +
        negative 0 * bucketSum value (bucket index n (2 ^ (d + 2) : Nat))) =
      ∑ i ∈ Finset.range n, weight i * value i := by
  have hsplit : 2 ^ d = 2 ^ d - 1 + 1 := (Nat.sub_add_cancel Nat.one_le_two_pow).symm
  have hzero : negativeCode d 0 = (2 ^ (d + 2) : Nat) := by
    rw [negativeCode, if_pos rfl, Nat.cast_pow]
    rfl
  have hsucc (t : Nat) : negativeCode d (t + 1) = -(t + 1 : Nat) := by
    rw [negativeCode, if_neg (Nat.succ_ne_zero t)]
  rw [<- sum_buckets h, hsplit, Finset.sum_range_succ', Finset.sum_range_succ', hzero]
  simp only [hsucc]
  rfl

theorem exponent_buckets {d n : Nat} {index : Nat -> Int} {v : Nat -> Nat}
    (hcodes : forall i, i < n -> IsCode d (v i) (index i)) (value : Nat -> Int) :
    ∑ t ∈ Finset.range (2 ^ d - 1), 5 ^ (t + 1) *
          bucketSum value (bucket index n (t + 1 : Nat)) +
        bucketSum value (bucket index n 0) -
      (∑ t ∈ Finset.range (2 ^ d - 1), 5 ^ (t + 1) *
          bucketSum value (bucket index n (-(t + 1 : Nat))) +
        bucketSum value (bucket index n (2 ^ (d + 2) : Nat))) ≡
      ∑ i ∈ Finset.range n, (v i : Int) * value i [ZMOD (2 * 2 ^ (d + 1) : Nat)] := by
  rw [<- pow_succ' 2 (d + 1)]
  have hweights (i : Nat) : exists w : Int, i < n -> (exists e : Nat, e < 2 ^ d ∧
      ((index i = e ∧ w = 5 ^ e) ∨ (index i = negativeCode d e ∧ w = -5 ^ e))) ∧
      w ≡ v i [ZMOD (2 ^ (d + 2) : Nat)] := by
    by_cases hi : i < n
    · rcases (hcodes i hi).weight with ⟨e, w, he, hcases, hmod⟩
      exact ⟨w, fun _ => ⟨⟨e, he, hcases⟩, hmod⟩⟩
    · exact ⟨0, fun h => absurd h hi⟩
  choose w hw using hweights
  have hsum := sum_loops w value (fun e => 5 ^ e) (fun e => -5 ^ e)
    fun i hi => (hw i hi).1
  have hcongr : ∑ i ∈ Finset.range n, w i * value i ≡ ∑ i ∈ Finset.range n, (v i : Int) * value i
      [ZMOD (2 ^ (d + 2) : Nat)] :=
    Int.ModEq.sum fun i hi => ((hw i (Finset.mem_range.mp hi)).2).mul_right _
  rw [<- hsum] at hcongr
  convert hcongr using 1
  simp only [neg_mul, Finset.sum_neg_distrib, pow_zero, one_mul]
  ring

theorem length_buckets {d n : Nat} {index : Nat -> Int} {v : Nat -> Nat}
    (hcodes : forall i, i < n -> IsCode d (v i) (index i)) :
    ∑ t ∈ Finset.range (2 ^ d - 1), (bucket index n (t + 1 : Nat)).length +
        (bucket index n 0).length +
      (∑ t ∈ Finset.range (2 ^ d - 1), (bucket index n (-(t + 1 : Nat))).length +
        (bucket index n (2 ^ (d + 2) : Nat)).length) = n := by
  have hsum := sum_loops (fun _ => 1) (fun _ => 1) (fun _ => 1) (fun _ => 1) (d := d) (n := n)
    fun i hi => by
      rcases (hcodes i hi).weight with ⟨e, _, he, ⟨hindex, _⟩ | ⟨hindex, _⟩, _⟩
      · exact ⟨e, he, Or.inl ⟨hindex, rfl⟩⟩
      · exact ⟨e, he, Or.inr ⟨hindex, rfl⟩⟩
  have hlength (l : List Nat) : bucketSum (fun _ => 1) l = l.length := by
    rw [bucketSum, List.map_const', List.sum_replicate, nsmul_eq_mul, mul_one]
  simp only [hlength, one_mul, Finset.sum_const, Finset.card_range, nsmul_eq_mul, mul_one] at hsum
  exact_mod_cast hsum

end RingGSWAccumulatorLMKCDEY

end BinFHE
end OpenFHE

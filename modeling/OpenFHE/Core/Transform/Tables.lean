import OpenFHE.Core.ReverseBits
import OpenFHE.Core.NativeInteger.ModInverse
import Mathlib.Data.ZMod.Basic

/-!
# Twiddle tables

`preCompute` fills the tables of `ChineseRemainderTransformFTTNat` for one
modulus: the powers of the root of unity and of its inverse in bit-reversed
order, the inverses of the powers of two up to the ring dimension, and for each
of them the constant that multiplies by it fast.
-/

namespace OpenFHE
namespace Core
namespace Transform

open Foundation NativeInteger

structure TransformTables where
  rootOfUnityReverseTable : List Nat
  rootOfUnityInverseReverseTable : List Nat
  rootOfUnityPreconReverseTable : List Nat
  rootOfUnityInversePreconReverseTable : List Nat
  cycloOrderInverseTable : List Nat
  cycloOrderInversePreconTable : List Nat
deriving DecidableEq, Repr

/-- A store through `operator[]`; outside the vector it is undefined. -/
def store (xs : List Nat) (i v : Nat) : Option (List Nat) :=
  if i < xs.length then some (xs.set i v) else none

structure RootState where
  x : Nat
  xinv : Nat
  table : List Nat
  tableI : List Nat
  preconTable : List Nat
  preconTableI : List Nat
deriving DecidableEq, Repr

def rootStep (rootOfUnity rootOfUnityInverse modulus mu msb : Nat) (s : RootState)
    (i : Nat) : Option RootState := do
  let iinv <- reverseBits i msb
  let table <- store s.table iinv s.x
  let precon <- prepModMulConst s.x modulus
  let preconTable <- store s.preconTable iinv precon
  let tableI <- store s.tableI iinv s.xinv
  let preconI <- prepModMulConst s.xinv modulus
  let preconTableI <- store s.preconTableI iinv preconI
  return {
    x := modMulMu s.x rootOfUnity modulus mu
    xinv := modMulMu s.xinv rootOfUnityInverse modulus mu
    table := table
    tableI := tableI
    preconTable := preconTable
    preconTableI := preconTableI }

structure OrderState where
  coInv : Nat
  tableCOI : List Nat
  preconTableCOI : List Nat
deriving DecidableEq, Repr

def orderStep (modulus : Nat) (s : OrderState) (i : Nat) : Option OrderState := do
  let inverse <- modInverse s.coInv modulus
  let tableCOI <- store s.tableCOI i inverse
  let precon <- prepModMulConst inverse modulus
  let preconTableCOI <- store s.preconTableCOI i precon
  return {
    coInv := lShift s.coInv 1
    tableCOI := tableCOI
    preconTableCOI := preconTableCOI }

def preCompute (rootOfUnity cycloOrder modulus : Nat) : Option TransformTables := do
  let ringDim := cycloOrder >>> 1
  let msb := getMSB (usint ((ringDim : Int) - 1))
  let mu <- computeMu modulus
  let rootOfUnityInverse <- modInverse rootOfUnity modulus
  let zeros := List.replicate ringDim 0
  let roots <- (List.range ringDim).foldlM
    (rootStep rootOfUnity rootOfUnityInverse modulus mu msb)
    { x := 1, xinv := 1, table := zeros, tableI := zeros,
      preconTable := zeros, preconTableI := zeros }
  let zeros := List.replicate (msb + 1) 0
  let orders <- (List.range (msb + 1)).foldlM (orderStep modulus)
    { coInv := 1, tableCOI := zeros, preconTableCOI := zeros }
  return {
    rootOfUnityReverseTable := roots.table
    rootOfUnityInverseReverseTable := roots.tableI
    rootOfUnityPreconReverseTable := roots.preconTable
    rootOfUnityInversePreconReverseTable := roots.preconTableI
    cycloOrderInverseTable := orders.tableCOI
    cycloOrderInversePreconTable := orders.preconTableCOI }

/-!
## Filling a table in bit-reversed order
-/

theorem store_length {xs ys : List Nat} {i v : Nat} (h : store xs i v = some ys) :
    ys.length = xs.length := by
  unfold store at h
  split at h
  next hi =>
      cases h
      exact List.length_set
  next hi =>
      cases h

theorem store_eq_none {xs : List Nat} {i v : Nat} (hi : xs.length <= i) :
    store xs i v = none := by
  unfold store
  rw [if_neg (by omega)]

/-- The entries with a reversed index below `i` hold the values of `f`. -/
structure FilledBelow (k i : Nat) (f : Nat -> Nat) (xs : List Nat) : Prop where
  length_eq : xs.length = 2 ^ k
  get : forall j, j < 2 ^ k -> bitReverse k j < i ->
    xs[j]? = some (f (bitReverse k j))

theorem FilledBelow.initial (k : Nat) (f : Nat -> Nat) :
    FilledBelow k 0 f (List.replicate (2 ^ k) 0) where
  length_eq := List.length_replicate
  get := by
    intro j _ hlt
    exact absurd hlt (Nat.not_lt_zero _)

theorem FilledBelow.store {k i : Nat} {f : Nat -> Nat} {xs : List Nat}
    (h : FilledBelow k i f xs) (hi : i < 2 ^ k) :
    exists ys, store xs (bitReverse k i) (f i) = some ys ∧
      FilledBelow k (i + 1) f ys := by
  have hrange : bitReverse k i < xs.length := by
    rw [h.length_eq]
    exact bitReverse_lt k i
  refine ⟨xs.set (bitReverse k i) (f i), ?_, ?_, ?_⟩
  · unfold Transform.store
    rw [if_pos hrange]
  · rw [List.length_set, h.length_eq]
  · intro j hj hlt
    by_cases heq : bitReverse k j = i
    · have hji : bitReverse k i = j := by
        rw [← heq, bitReverse_bitReverse k hj]
      rw [hji] at hrange ⊢
      rw [List.getElem?_set_self hrange, heq]
    · have hne : bitReverse k i ≠ j := by
        intro hji
        rw [← hji, bitReverse_bitReverse k hi] at heq
        exact heq rfl
      rw [List.getElem?_set_ne hne, h.get j hj (by omega)]

theorem FilledBelow.get_all {k : Nat} {f : Nat -> Nat} {xs : List Nat}
    (h : FilledBelow k (2 ^ k) f xs) {j : Nat} (hj : j < 2 ^ k) :
    xs[j]? = some (f (bitReverse k j)) :=
  h.get j hj (bitReverse_lt k j)

/-!
## The tables of a power-of-two ring dimension
-/

/-- What `preCompute` leaves in the tables for the ring dimension `2 ^ k`. -/
structure TablesSpec (k rootOfUnity modulus : Nat) (tables : TransformTables) :
    Prop where
  root : forall j, j < 2 ^ k -> tables.rootOfUnityReverseTable[j]? =
    some (rootOfUnity ^ bitReverse k j % modulus)
  preconRoot : forall j, j < 2 ^ k -> tables.rootOfUnityPreconReverseTable[j]? =
    some (precon (rootOfUnity ^ bitReverse k j % modulus) modulus)
  inverse : exists inv, inv < modulus ∧ rootOfUnity * inv % modulus = 1 ∧
    (forall j, j < 2 ^ k -> tables.rootOfUnityInverseReverseTable[j]? =
      some (inv ^ bitReverse k j % modulus)) ∧
    forall j, j < 2 ^ k -> tables.rootOfUnityInversePreconReverseTable[j]? =
      some (precon (inv ^ bitReverse k j % modulus) modulus)
  order : forall i, i <= k -> exists inv, inv < modulus ∧ 2 ^ i * inv % modulus = 1 ∧
    tables.cycloOrderInverseTable[i]? = some inv ∧
    tables.cycloOrderInversePreconTable[i]? = some (precon inv modulus)

structure RootInv (k rootOfUnity inv modulus i : Nat) (s : RootState) : Prop where
  x_eq : s.x = rootOfUnity ^ i % modulus
  xinv_eq : s.xinv = inv ^ i % modulus
  table : FilledBelow k i (fun j => rootOfUnity ^ j % modulus) s.table
  tableI : FilledBelow k i (fun j => inv ^ j % modulus) s.tableI
  preconTable : FilledBelow k i
    (fun j => precon (rootOfUnity ^ j % modulus) modulus) s.preconTable
  preconTableI : FilledBelow k i
    (fun j => precon (inv ^ j % modulus) modulus) s.preconTableI

section Fill

variable {k rootOfUnity inv modulus mu : Nat}
  (hodd : modulus % 2 = 1) (h1 : 1 < modulus) (h60 : modulus < 2 ^ 60)
  (hmu : computeMu modulus = some mu)

include hodd h1 h60 hmu

theorem rootStep_spec (hk : 0 < k) (hk24 : k <= 24) (hroot : rootOfUnity < modulus)
    (hinv : inv < modulus) {i : Nat} (hi : i < 2 ^ k) {s : RootState}
    (hs : RootInv k rootOfUnity inv modulus i s) :
    exists s', rootStep rootOfUnity inv modulus mu k s i = some s' ∧
      RootInv k rootOfUnity inv modulus (i + 1) s' := by
  have hpos : 0 < modulus := by omega
  have hword : modulus < 2 ^ maxBits := by
    simp only [maxBits]
    omega
  rcases hs.table.store hi with ⟨table, htable, htable'⟩
  rcases hs.tableI.store hi with ⟨tableI, htableI, htableI'⟩
  rcases hs.preconTable.store hi with ⟨preconTable, hprecon, hprecon'⟩
  rcases hs.preconTableI.store hi with ⟨preconTableI, hpreconI, hpreconI'⟩
  refine ⟨{
    x := modMulMu s.x rootOfUnity modulus mu
    xinv := modMulMu s.xinv inv modulus mu
    table := table
    tableI := tableI
    preconTable := preconTable
    preconTableI := preconTableI }, ?_, ?_, ?_, htable', htableI', hprecon', hpreconI'⟩
  · unfold rootStep
    rw [reverseBits_low hk hk24 hi, hs.x_eq, hs.xinv_eq,
      prepModMulConst_eq hword (Nat.mod_lt _ hpos),
      prepModMulConst_eq hword (Nat.mod_lt _ hpos)]
    simp only [Option.bind_eq_bind, Option.bind_some]
    rw [htable, Option.bind_some]
    rw [hprecon, Option.bind_some, htableI, Option.bind_some, hpreconI,
      Option.bind_some]
    rfl
  · dsimp only
    rw [hs.x_eq, modMulMu_eq (by omega) h1 h60 (Nat.mod_lt _ hpos) hroot hmu,
      Nat.mod_mul_mod, pow_succ]
  · dsimp only
    rw [hs.xinv_eq, modMulMu_eq (by omega) h1 h60 (Nat.mod_lt _ hpos) hinv hmu,
      Nat.mod_mul_mod, pow_succ]

end Fill

structure OrderInv (k modulus i : Nat) (s : OrderState) : Prop where
  coInv_eq : s.coInv = 2 ^ i
  length_eq : s.tableCOI.length = k + 1
  precon_length_eq : s.preconTableCOI.length = k + 1
  get : forall j, j < i -> exists inv, inv < modulus ∧ 2 ^ j * inv % modulus = 1 ∧
    s.tableCOI[j]? = some inv ∧ s.preconTableCOI[j]? = some (precon inv modulus)

theorem orderStep_spec {k modulus i : Nat} (hodd : modulus % 2 = 1)
    (h1 : 1 < modulus) (h60 : modulus < 2 ^ 60) (hk : k <= 24) (hi : i < k + 1)
    {s : OrderState} (hs : OrderInv k modulus i s) :
    exists s', orderStep modulus s i = some s' ∧ OrderInv k modulus (i + 1) s' := by
  have hgcd : Nat.gcd (2 ^ i) modulus = 1 :=
    Nat.Coprime.pow_left i (Nat.coprime_two_left.mpr (Nat.odd_iff.mpr hodd))
  rcases modInverse_spec h1 (by omega) hgcd with ⟨inv, hrun, hlt, hprod⟩
  have hstore (xs : List Nat) (v : Nat) (hxs : xs.length = k + 1) :
      store xs i v = some (xs.set i v) := by
    unfold store
    rw [if_pos (by omega)]
  refine ⟨{
    coInv := lShift s.coInv 1
    tableCOI := s.tableCOI.set i inv
    preconTableCOI := s.preconTableCOI.set i (precon inv modulus) }, ?_, ?_, ?_, ?_, ?_⟩
  · unfold orderStep
    rw [hs.coInv_eq, hrun]
    simp only [Option.bind_eq_bind, Option.bind_some]
    rw [hstore _ _ hs.length_eq, Option.bind_some,
      prepModMulConst_eq (by simp only [maxBits]; omega) hlt, Option.bind_some,
      hstore _ _ hs.precon_length_eq, Option.bind_some]
    rfl
  · dsimp only
    have hpow : 2 ^ (i + 1) < 2 ^ maxBits :=
      Nat.pow_lt_pow_right (by decide) (by simp only [maxBits]; omega)
    rw [hs.coInv_eq, lShift, Nat.shiftLeft_eq, pow_one, ← pow_succ, word_eq hpow]
  · simpa using hs.length_eq
  · simpa using hs.precon_length_eq
  · intro j hj
    dsimp only
    by_cases heq : j = i
    · subst heq
      refine ⟨inv, hlt, hprod, List.getElem?_set_self ?_, List.getElem?_set_self ?_⟩
      · rw [hs.length_eq]
        exact hi
      · rw [hs.precon_length_eq]
        exact hi
    · rw [List.getElem?_set_ne (Ne.symm heq), List.getElem?_set_ne (Ne.symm heq)]
      exact hs.get j (by omega)

theorem getMSB_pred_two_pow {k : Nat} (hk : 0 < k) (h32 : k <= 31) :
    getMSB (usint (((2 ^ k : Nat) : Int) - 1)) = k := by
  have hpow : 2 ^ k <= 2 ^ 31 := Nat.pow_le_pow_right (by decide) h32
  have hpos : 2 ^ 1 <= 2 ^ k := Nat.pow_le_pow_right (by decide) hk
  have husint : usint (((2 ^ k : Nat) : Int) - 1) = 2 ^ k - 1 := by
    unfold usint
    omega
  have hhalf : 2 ^ k = 2 * 2 ^ (k - 1) := by
    rw [← pow_succ']
    congr 1
    omega
  rw [husint, getMSB, if_neg (by omega)]
  have hlog : Nat.log2 (2 ^ k - 1) = k - 1 := by
    rw [Nat.log2_eq_iff (by omega), Nat.sub_add_cancel hk]
    omega
  omega

theorem preCompute_spec {k rootOfUnity modulus : Nat} (hodd : modulus % 2 = 1)
    (h1 : 1 < modulus) (h60 : modulus < 2 ^ 60) (hk : 0 < k) (hk24 : k <= 24)
    (hroot : rootOfUnity < modulus) (hgcd : Nat.gcd rootOfUnity modulus = 1) :
    exists tables, preCompute rootOfUnity (2 * 2 ^ k) modulus = some tables ∧
      TablesSpec k rootOfUnity modulus tables := by
  have hmu := computeMu_eq (by omega) h1 h60
  rcases modInverse_spec h1 (by omega) hgcd with ⟨inv, hinv, hinvLt, hinvProd⟩
  have hmsb := getMSB_pred_two_pow hk (by omega)
  rcases foldlM_range_spec (f := rootStep rootOfUnity inv modulus _ k)
    (RootInv k rootOfUnity inv modulus) (n := 2 ^ k)
    (s := { x := 1, xinv := 1, table := List.replicate (2 ^ k) 0,
            tableI := List.replicate (2 ^ k) 0,
            preconTable := List.replicate (2 ^ k) 0,
            preconTableI := List.replicate (2 ^ k) 0 })
    { x_eq := by rw [pow_zero, Nat.mod_eq_of_lt h1]
      xinv_eq := by rw [pow_zero, Nat.mod_eq_of_lt h1]
      table := FilledBelow.initial k _
      tableI := FilledBelow.initial k _
      preconTable := FilledBelow.initial k _
      preconTableI := FilledBelow.initial k _ }
    (fun i hi s hs =>
      rootStep_spec hodd h1 h60 hmu hk hk24 hroot hinvLt hi hs) with
    ⟨roots, hroots, hrootsInv⟩
  rcases foldlM_range_spec (f := orderStep modulus) (OrderInv k modulus)
    (n := k + 1)
    (s := { coInv := 1, tableCOI := List.replicate (k + 1) 0,
            preconTableCOI := List.replicate (k + 1) 0 })
    { coInv_eq := rfl
      length_eq := List.length_replicate
      precon_length_eq := List.length_replicate
      get := fun j hj => absurd hj (Nat.not_lt_zero j) }
    (fun i hi s hs => orderStep_spec hodd h1 h60 hk24 hi hs) with
    ⟨orders, horders, hordersInv⟩
  refine ⟨{
    rootOfUnityReverseTable := roots.table
    rootOfUnityInverseReverseTable := roots.tableI
    rootOfUnityPreconReverseTable := roots.preconTable
    rootOfUnityInversePreconReverseTable := roots.preconTableI
    cycloOrderInverseTable := orders.tableCOI
    cycloOrderInversePreconTable := orders.preconTableCOI }, ?_, ?_⟩
  · unfold preCompute
    have hring : (2 * 2 ^ k) >>> 1 = 2 ^ k := by
      rw [Nat.shiftRight_eq_div_pow, pow_one, Nat.mul_div_cancel_left _ (by decide)]
    simp only [hring, hmsb, hmu, hinv, Option.bind_eq_bind, Option.bind_some]
    rw [hroots, Option.bind_some, horders, Option.bind_some]
    rfl
  · exact {
      root := fun j hj => hrootsInv.table.get_all hj
      preconRoot := fun j hj => hrootsInv.preconTable.get_all hj
      inverse := ⟨inv, hinvLt, hinvProd, fun j hj => hrootsInv.tableI.get_all hj,
        fun j hj => hrootsInv.preconTableI.get_all hj⟩
      order := fun i hi => hordersInv.get i (by omega) }

theorem exists_tables {k rootOfUnity modulus : Nat} (hodd : modulus % 2 = 1)
    (h1 : 1 < modulus) (h60 : modulus < 2 ^ 60)
    (hgcd : Nat.gcd rootOfUnity modulus = 1) :
    exists tables, TablesSpec k rootOfUnity modulus tables := by
  rcases modInverse_spec h1 (by omega) hgcd with ⟨inv, _, hlt, hproduct⟩
  have hmap : forall (g : Nat -> Nat) (n j : Nat), j < n ->
      ((List.range n).map g)[j]? = some (g j) := by
    intro g n j hj
    rw [List.getElem?_map, List.getElem?_range hj, Option.map_some]
  refine ⟨{
    rootOfUnityReverseTable :=
      (List.range (2 ^ k)).map fun j => rootOfUnity ^ bitReverse k j % modulus
    rootOfUnityInverseReverseTable :=
      (List.range (2 ^ k)).map fun j => inv ^ bitReverse k j % modulus
    rootOfUnityPreconReverseTable := (List.range (2 ^ k)).map fun j =>
      precon (rootOfUnity ^ bitReverse k j % modulus) modulus
    rootOfUnityInversePreconReverseTable := (List.range (2 ^ k)).map fun j =>
      precon (inv ^ bitReverse k j % modulus) modulus
    cycloOrderInverseTable :=
      (List.range (k + 1)).map fun i => (modInverse (2 ^ i) modulus).getD 0
    cycloOrderInversePreconTable := (List.range (k + 1)).map fun i =>
      precon ((modInverse (2 ^ i) modulus).getD 0) modulus },
    hmap _ _, hmap _ _, ⟨inv, hlt, hproduct, hmap _ _, hmap _ _⟩, ?_⟩
  intro i hi
  have hcoprime : Nat.gcd (2 ^ i) modulus = 1 :=
    Nat.Coprime.pow_left i (Nat.coprime_two_left.mpr (Nat.odd_iff.mpr hodd))
  rcases modInverse_spec h1 (by omega) hcoprime with ⟨w, hw, hw_lt, hw_product⟩
  refine ⟨w, hw_lt, hw_product, ?_, ?_⟩
  · rw [hmap _ _ _ (by omega), hw, Option.getD_some]
  · rw [hmap _ _ _ (by omega), hw, Option.getD_some]

theorem rootStep_length {rootOfUnity inv modulus mu msb i : Nat} {s s' : RootState}
    (h : rootStep rootOfUnity inv modulus mu msb s i = some s') :
    s'.table.length = s.table.length := by
  unfold rootStep at h
  simp only [Option.bind_eq_bind, Option.bind_eq_some_iff] at h
  rcases h with ⟨_, _, table, htable, _, _, _, _, _, _, _, _, _, _, hret⟩
  cases hret
  exact store_length htable

/--
From the ring dimension `2 ^ 25` on, the index of the first power of the root
is negative before its conversion and lies outside the table.
-/
theorem rootStep_one_eq_none {rootOfUnity inv modulus mu k : Nat} {s : RootState}
    (hk : 24 < k) (hk31 : k < 32) (hlen : s.table.length = 2 ^ k) :
    rootStep rootOfUnity inv modulus mu k s 1 = none := by
  have hone : 1 < 2 ^ k := Nat.one_lt_two_pow (by omega)
  have hle : 2 ^ k <= 2 ^ 31 := Nat.pow_le_pow_right (by decide) (by omega)
  unfold rootStep
  rw [reverseBits_high hk hk31 hone, if_neg (by decide)]
  simp only [Option.bind_eq_bind, Option.bind_some]
  rw [store_eq_none (by omega)]
  rfl

theorem preCompute_eq_none {k : Nat} (rootOfUnity modulus : Nat) (hk : 24 < k)
    (hk31 : k <= 31) : preCompute rootOfUnity (2 * 2 ^ k) modulus = none := by
  have hmsb := getMSB_pred_two_pow (k := k) (by omega) hk31
  have hring : (2 * 2 ^ k) >>> 1 = 2 ^ k := by
    rw [Nat.shiftRight_eq_div_pow, pow_one, Nat.mul_div_cancel_left _ (by decide)]
  have htwo : 2 ^ k = 2 + (2 ^ k - 2) := by
    have hpow : 2 ^ 1 <= 2 ^ k := Nat.pow_le_pow_right (by decide) (by omega)
    omega
  rw [Option.eq_none_iff_forall_not_mem]
  intro tables htables
  unfold preCompute at htables
  simp only [hring, hmsb, Option.bind_eq_bind, Option.mem_def,
    Option.bind_eq_some_iff] at htables
  rcases htables with ⟨mu, _, inv, _, roots, hroots, _⟩
  rw [htwo, List.range_add, List.foldlM_append, ← htwo] at hroots
  simp only [Option.bind_eq_bind, Option.bind_eq_some_iff] at hroots
  rcases hroots with ⟨s₂, hfirst, _⟩
  change (rootStep rootOfUnity inv modulus mu k _ 0).bind
    (fun s => (rootStep rootOfUnity inv modulus mu k s 1).bind some) = some s₂ at hfirst
  rcases Option.bind_eq_some_iff.mp hfirst with ⟨s₁, hs₁, hs₂⟩
  have hlen : s₁.table.length = 2 ^ k := by
    rw [rootStep_length hs₁]
    exact List.length_replicate
  rw [rootStep_one_eq_none hk (by omega) hlen] at hs₂
  cases hs₂

theorem preCompute_one_eq_none (rootOfUnity modulus : Nat) :
    preCompute rootOfUnity (2 * 2 ^ 0) modulus = none := by
  rw [Option.eq_none_iff_forall_not_mem]
  intro tables htables
  unfold preCompute at htables
  simp only [Option.bind_eq_bind, Option.mem_def, Option.bind_eq_some_iff] at htables
  rcases htables with ⟨mu, _, inv, _, roots, hroots, _⟩
  cases hroots

end Transform
end Core
end OpenFHE

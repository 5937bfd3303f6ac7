import OpenFHE.Core.Transform.Inverse

/-!
# Variants of the transforms

`NumberTheoreticTransformNat` has transforms with Barrett products and without
preconditioned tables, transforms into a separate vector that skip zero operands,
and a second text of every butterfly for Clang.  On residues they all compute the
same butterfly.
-/

namespace OpenFHE
namespace Core
namespace Transform

open Foundation NativeInteger

/-!
## The loops without peeled stages
-/

/-- `for (m = 1; m < n; m <<= 1)` with `t = n >> 1`. -/
def plainForwardSchedule (n : Nat) : List Butterfly :=
  forwardStages n n 1 (n >>> 1) (getMSB (n >>> 1))

/-- `for (m = n >> 1; m >= 1; m >>= 1)`. -/
def plainInverseStages : Nat -> Nat -> Nat -> Nat -> List Butterfly
  | 0, _, _, _ => []
  | fuel + 1, m, t, logt =>
      if 1 <= m then
        stageButterflies m t logt ++ plainInverseStages fuel (m >>> 1) (t <<< 1) (logt + 1)
      else []

def plainInverseSchedule (n : Nat) : List Butterfly := plainInverseStages n (n >>> 1) 1 1

/-!
## The two texts of a butterfly
-/

/-- A product with the root at an index of the table. -/
abbrev Factor := Nat -> Option (Nat -> Nat)

def shoupFactor (modulus : Nat) (table preconTable : List Nat) : Factor := fun root => do
  let omega <- table[root]?
  let preconOmega <- preconTable[root]?
  return fun x => modMulFastConst x omega modulus preconOmega

def barrettFactor (modulus mu : Nat) (table : List Nat) : Factor := fun root => do
  let omega <- table[root]?
  return fun x => modMulFastMu x omega modulus mu

/-- The new low entry and the new high entry from `loVal` and `omegaFactor`. -/
def sums (modulus loVal omegaFactor : Nat) : Nat × Nat :=
  let hiVal := addFast loVal omegaFactor
  let hiVal := if hiVal >= modulus then subFast hiVal modulus else hiVal
  let loVal := if loVal < omegaFactor then addFast loVal modulus else loVal
  (hiVal, subFast loVal omegaFactor)

/-- The text for Clang; its first line wraps around below zero. -/
def sumsClang (modulus loVal omegaFactor : Nat) : Nat × Nat :=
  let low := addFast loVal
    (subFast omegaFactor (if omegaFactor >= subFast modulus loVal then modulus else 0))
  let loVal := if omegaFactor > loVal then addFast loVal modulus else loVal
  (low, subFast loVal omegaFactor)

/-- The sum and the difference of an inverse butterfly. -/
def differences (modulus loVal hiVal : Nat) : Nat × Nat :=
  let omegaFactor := if loVal < hiVal then addFast loVal modulus else loVal
  let omegaFactor := subFast omegaFactor hiVal
  let loVal := addFast loVal hiVal
  (if loVal >= modulus then subFast loVal modulus else loVal, omegaFactor)

def differencesClang (modulus loVal hiVal : Nat) : Nat × Nat :=
  let omegaFactor := subFast (addFast loVal (if hiVal > loVal then modulus else 0)) hiVal
  (addFast loVal (subFast hiVal (if hiVal >= subFast modulus loVal then modulus else 0)),
    omegaFactor)

def forwardButterflyWith (factor : Factor) (text : Nat -> Nat -> Nat × Nat)
    (element : List Nat) (b : Butterfly) : Option (List Nat) := do
  let times <- factor b.root
  let x <- element[b.hi]?
  let loVal <- element[b.lo]?
  let pair := text loVal (times x)
  return (element.set b.lo pair.1).set b.hi pair.2

/-- A zero operand leaves the low entry and copies it to the high one. -/
def forwardButterflySkip (factor : Factor) (text : Nat -> Nat -> Nat × Nat)
    (element : List Nat) (b : Butterfly) : Option (List Nat) := do
  let times <- factor b.root
  let loVal <- element[b.lo]?
  let x <- element[b.hi]?
  if x ≠ 0 then
    let pair := text loVal (times x)
    return (element.set b.lo pair.1).set b.hi pair.2
  else return element.set b.hi loVal

def inverseButterflyText (factor : Factor) (text : Nat -> Nat -> Nat × Nat)
    (element : List Nat) (b : Butterfly) : Option (List Nat) := do
  let times <- factor b.root
  let loVal <- element[b.lo]?
  let hiVal <- element[b.hi]?
  let pair := text loVal hiVal
  return (element.set b.lo pair.1).set b.hi (times pair.2)

/-!
## The transforms
-/

/-- `ForwardTransformToBitReverseInPlace` with Barrett products. -/
def forwardBarrettInPlace (modulus : Nat) (rootOfUnityTable element : List Nat) :
    Option (List Nat) := do
  let mu <- computeMu modulus
  (plainForwardSchedule element.length).foldlM
    (forwardButterflyWith (barrettFactor modulus mu rootOfUnityTable) (sums modulus)) element

/-- `ForwardTransformToBitReverse` with Barrett products; `result` is overwritten. -/
def forwardBarrett (modulus : Nat) (element rootOfUnityTable result : List Nat) :
    Option (List Nat) :=
  if result.length ≠ element.length then none
  else do
    let mu <- computeMu modulus
    (plainForwardSchedule element.length).foldlM
      (forwardButterflySkip (barrettFactor modulus mu rootOfUnityTable) (sums modulus)) element

/-- `ForwardTransformToBitReverseInPlace` as Clang compiles it. -/
def forwardShoupInPlaceClang (modulus : Nat)
    (rootOfUnityTable preconRootOfUnityTable element : List Nat) : Option (List Nat) :=
  (forwardSchedule element.length).foldlM
    (forwardButterflyWith (shoupFactor modulus rootOfUnityTable preconRootOfUnityTable)
      (sumsClang modulus)) element

/-- `ForwardTransformToBitReverse` with preconditioned tables. -/
def forwardShoup (modulus : Nat)
    (element rootOfUnityTable preconRootOfUnityTable result : List Nat) :
    Option (List Nat) :=
  if result.length ≠ element.length then none
  else
    (plainForwardSchedule element.length).foldlM
      (forwardButterflySkip (shoupFactor modulus rootOfUnityTable preconRootOfUnityTable)
        (sums modulus)) element

/-- `(*element)[i].ModMulFastEq(c, modulus, mu)`. -/
def scaleEntryBarrett (modulus mu c : Nat) (element : List Nat) (i : Nat) :
    Option (List Nat) := do
  let x <- element[i]?
  return element.set i (modMulFastMu x c modulus mu)

/-- `InverseTransformFromBitReverseInPlace` with Barrett products. -/
def inverseBarrettInPlace (modulus : Nat) (rootOfUnityInverseTable : List Nat)
    (cycloOrderInv : Nat) (element : List Nat) : Option (List Nat) := do
  let mu <- computeMu modulus
  let element <- (plainInverseSchedule element.length).foldlM
    (inverseButterflyText (barrettFactor modulus mu rootOfUnityInverseTable)
      (differences modulus)) element
  (List.range element.length).foldlM (scaleEntryBarrett modulus mu cycloOrderInv) element

/-- `InverseTransformFromBitReverse` with Barrett products. -/
def inverseBarrett (modulus : Nat) (element rootOfUnityInverseTable : List Nat)
    (cycloOrderInv : Nat) (result : List Nat) : Option (List Nat) :=
  if result.length ≠ element.length then none
  else inverseBarrettInPlace modulus rootOfUnityInverseTable cycloOrderInv element

/-- `InverseTransformFromBitReverseInPlace` as Clang compiles it. -/
def inverseShoupInPlaceClang (modulus : Nat)
    (rootOfUnityInverseTable preconRootOfUnityInverseTable : List Nat)
    (cycloOrderInv preconCycloOrderInv : Nat) (element : List Nat) :
    Option (List Nat) := do
  let n := element.length
  let root <- rootOfUnityInverseTable[1]?
  let omega1Inv := modMulFastConst root cycloOrderInv modulus preconCycloOrderInv
  let preconOmega1Inv <- prepModMulConst omega1Inv modulus
  let element <- (inverseSchedule n).foldlM
    (inverseButterflyText
      (shoupFactor modulus rootOfUnityInverseTable preconRootOfUnityInverseTable)
      (differencesClang modulus)) element
  let j2 := n >>> 1
  let element <- (List.range j2).foldlM
    (fun element j1 => inverseButterflyText
      (fun _ => some fun x => modMulFastConst x omega1Inv modulus preconOmega1Inv)
      (differencesClang modulus) element { lo := j1, hi := j1 + j2, root := 1 }) element
  (List.range j2).foldlM (scaleEntry modulus cycloOrderInv preconCycloOrderInv) element

/-- `InverseTransformFromBitReverse` with preconditioned tables. -/
def inverseShoup (modulus : Nat)
    (element rootOfUnityInverseTable preconRootOfUnityInverseTable : List Nat)
    (cycloOrderInv preconCycloOrderInv : Nat) (result : List Nat) : Option (List Nat) :=
  if result.length ≠ element.length then none
  else
    inverseTransformFromBitReverseInPlace modulus rootOfUnityInverseTable
      preconRootOfUnityInverseTable cycloOrderInv preconCycloOrderInv element

/-!
## One butterfly on residues
-/

/-- A text computes the sum and the difference modulo `q`. -/
def IsSums (q : Nat) (text : Nat -> Nat -> Nat × Nat) : Prop :=
  forall x y, x < q -> y < q -> text x y = ((x + y) % q, (x + (q - y)) % q)

/-- A factor multiplies by the entries of a table of residues. -/
def IsFactor (q n : Nat) (table : List Nat) (factor : Factor) : Prop :=
  forall j, j < n -> exists w times, table[j]? = some w ∧ w < q ∧ factor j = some times ∧
    forall x, x < q -> times x = x * w % q

def reducedForward (q : Nat) (table element : List Nat) (b : Butterfly) :
    Option (List Nat) := do
  let w <- table[b.root]?
  let x <- element[b.hi]?
  let y <- element[b.lo]?
  return (element.set b.lo ((y + x * w % q) % q)).set b.hi ((y + (q - x * w % q)) % q)

def reducedInverse (q : Nat) (table element : List Nat) (b : Butterfly) :
    Option (List Nat) := do
  let w <- table[b.root]?
  let x <- element[b.lo]?
  let y <- element[b.hi]?
  return (element.set b.lo ((x + y) % q)).set b.hi ((x + (q - y)) % q * w % q)

section Texts

variable {q : Nat} (hq : q < 2 ^ 60)

include hq

theorem isSums_sums : IsSums q (sums q) := by
  intro x y hx hy
  have hsum : addFast x y = x + y := by
    rw [addFast, word_eq (by simp only [maxBits]; omega), add_comm]
  have hlift : addFast x q = x + q := by
    rw [addFast, word_eq (by simp only [maxBits]; omega), add_comm]
  unfold sums
  dsimp only
  rw [hsum, hlift]
  refine Prod.ext ?_ ?_
  · dsimp only
    split
    next hge =>
        rw [subFast_eq hge (by simp only [maxBits]; omega), Nat.mod_eq_sub_mod hge,
          Nat.mod_eq_of_lt (by omega)]
    next hlt => rw [Nat.mod_eq_of_lt (by omega)]
  · dsimp only
    split
    next hlt =>
        rw [subFast_eq (by omega) (by simp only [maxBits]; omega), Nat.mod_eq_of_lt (by omega)]
        omega
    next hge =>
        rw [subFast_eq (by omega) (by simp only [maxBits]; omega),
          show x + (q - y) = x - y + q by omega, Nat.add_mod_right,
          Nat.mod_eq_of_lt (by omega)]

/-- The low entry wraps around twice, or not at all. -/
theorem clang_low {x y : Nat} (hx : x < q) (hy : y < q) :
    addFast x (subFast y (if y >= subFast q x then q else 0)) = (x + y) % q := by
  have hdiff : subFast q x = q - x :=
    subFast_eq (by omega) (by simp only [maxBits]; omega)
  rw [hdiff]
  split
  next hge =>
      rw [Nat.mod_eq_sub_mod (by omega), Nat.mod_eq_of_lt (by omega)]
      unfold addFast subFast word maxBits
      omega
  next hlt =>
      rw [Nat.mod_eq_of_lt (by omega)]
      unfold addFast subFast word maxBits
      omega

theorem isSums_sumsClang : IsSums q (sumsClang q) := by
  intro x y hx hy
  have hsums := congrArg Prod.snd (isSums_sums hq x y hx hy)
  exact Prod.ext (clang_low hq hx hy) hsums

theorem isSums_differences : IsSums q (differences q) := isSums_sums hq

theorem isSums_differencesClang : IsSums q (differencesClang q) := by
  intro x y hx hy
  have hsums := congrArg Prod.snd (isSums_sums hq x y hx hy)
  refine Prod.ext (clang_low hq hx hy) (Eq.trans ?_ hsums)
  unfold differencesClang sums
  dsimp only
  by_cases hlt : x < y
  · rw [if_pos hlt, if_pos hlt]
  · rw [if_neg hlt, if_neg hlt, addFast, zero_add, word_eq (by simp only [maxBits]; omega)]

end Texts

section Factors

variable {q n : Nat} (hq : q < 2 ^ 60) {table : List Nat}

include hq

theorem isFactor_shoup {preconTable : List Nat}
    (htable : forall j, j < n -> exists w p, table[j]? = some w ∧ w < q ∧
      prepModMulConst w q = some p ∧ preconTable[j]? = some p) :
    IsFactor q n table (shoupFactor q table preconTable) := by
  intro j hj
  rcases htable j hj with ⟨w, p, hw, hlt, hp, hpre⟩
  rw [prepModMulConst_eq (by simp only [maxBits]; omega) hlt] at hp
  rw [← Option.some.inj hp] at hpre
  refine ⟨w, fun x => modMulFastConst x w q (precon w q), hw, hlt, ?_, ?_⟩
  · unfold shoupFactor
    rw [hw, hpre]
    rfl
  · intro x hx
    exact modMulFastConst_eq (by omega) hlt (by simp only [maxBits]; omega)

theorem isFactor_barrett (hodd : q % 2 = 1) (h1 : 1 < q) {mu : Nat}
    (hmu : computeMu q = some mu)
    (htable : forall j, j < n -> exists w, table[j]? = some w ∧ w < q) :
    IsFactor q n table (barrettFactor q mu table) := by
  intro j hj
  rcases htable j hj with ⟨w, hw, hlt⟩
  refine ⟨w, fun x => modMulFastMu x w q mu, hw, hlt, ?_, ?_⟩
  · unfold barrettFactor
    rw [hw]
    rfl
  · intro x hx
    exact modMulFastMu_eq (by omega) h1 hq hx hlt hmu

end Factors

section Agree

variable {q n : Nat} (hq0 : 0 < q) {table : List Nat} {factor : Factor}
  (hfactor : IsFactor q n table factor) {text : Nat -> Nat -> Nat × Nat}
  (htext : IsSums q text) {element : List Nat} (h : Residues n q element) {b : Butterfly}
  (hlo : b.lo < n) (hhi : b.hi < n) (hroot : b.root < n)

include hq0 hfactor htext h hlo hhi hroot

theorem forwardButterflyWith_reduced :
    exists r, forwardButterflyWith factor text element b = some r ∧
      reducedForward q table element b = some r ∧ Residues n q r := by
  rcases hfactor b.root hroot with ⟨w, times, hw, hlt, htimes, hmul⟩
  rcases h.exists_entry hhi with ⟨x, hx, hx_lt⟩
  rcases h.exists_entry hlo with ⟨y, hy, hy_lt⟩
  refine ⟨(element.set b.lo ((y + x * w % q) % q)).set b.hi ((y + (q - x * w % q)) % q),
    ?_, ?_, ?_⟩
  · unfold forwardButterflyWith
    rw [htimes, hx, hy]
    simp only [Option.bind_eq_bind, Option.bind_some]
    rw [hmul x hx_lt, htext y _ hy_lt (Nat.mod_lt _ hq0)]
    rfl
  · unfold reducedForward
    rw [hw, hx, hy]
    rfl
  · exact (h.set (Nat.mod_lt _ hq0)).set (Nat.mod_lt _ hq0)

theorem forwardButterflySkip_reduced :
    exists r, forwardButterflySkip factor text element b = some r ∧
      reducedForward q table element b = some r ∧ Residues n q r := by
  rcases forwardButterflyWith_reduced hq0 hfactor htext h hlo hhi hroot with
    ⟨r, hr, hreduced, hresidues⟩
  refine ⟨r, ?_, hreduced, hresidues⟩
  rcases hfactor b.root hroot with ⟨w, times, hw, hlt, htimes, hmul⟩
  rcases h.exists_entry hhi with ⟨x, hx, _⟩
  rcases h.exists_entry hlo with ⟨y, hy, hy_lt⟩
  rw [← hr]
  unfold forwardButterflySkip forwardButterflyWith
  rw [htimes, hx, hy]
  simp only [Option.bind_eq_bind, Option.bind_some]
  by_cases hzero : x = 0
  · have hset : element.set b.lo y = element := by
      refine List.ext_getElem? fun j => ?_
      by_cases hj : b.lo = j
      · rw [← hj, List.getElem?_set_self (List.getElem?_eq_some_iff.mp hy).1, hy]
      · rw [List.getElem?_set_ne hj]
    rw [if_neg (not_not.mpr hzero), hzero, hmul 0 hq0, zero_mul, Nat.zero_mod,
      htext y 0 hy_lt hq0, Nat.add_zero, Nat.sub_zero, Nat.add_mod_right,
      Nat.mod_eq_of_lt hy_lt, hset]
  · rw [if_pos hzero]

theorem inverseButterflyText_reduced :
    exists r, inverseButterflyText factor text element b = some r ∧
      reducedInverse q table element b = some r ∧ Residues n q r := by
  rcases hfactor b.root hroot with ⟨w, times, hw, hlt, htimes, hmul⟩
  rcases h.exists_entry hlo with ⟨x, hx, hx_lt⟩
  rcases h.exists_entry hhi with ⟨y, hy, hy_lt⟩
  refine ⟨(element.set b.lo ((x + y) % q)).set b.hi ((x + (q - y)) % q * w % q),
    ?_, ?_, ?_⟩
  · unfold inverseButterflyText
    rw [htimes, hx, hy]
    simp only [Option.bind_eq_bind, Option.bind_some]
    rw [htext x y hx_lt hy_lt]
    dsimp only
    rw [hmul _ (Nat.mod_lt _ hq0)]
    rfl
  · unfold reducedInverse
    rw [hw, hx, hy]
    rfl
  · exact (h.set (Nat.mod_lt _ hq0)).set (Nat.mod_lt _ hq0)

end Agree

theorem forwardButterfly_eq (q : Nat) (table preconTable : List Nat) :
    forwardButterfly q table preconTable =
      forwardButterflyWith (shoupFactor q table preconTable) (sums q) := by
  funext element b
  unfold forwardButterfly forwardButterflyWith shoupFactor
  cases table[b.root]? with
  | none => rfl
  | some omega =>
      cases preconTable[b.root]? with
      | none => rfl
      | some preconOmega => rfl

theorem inverseButterfly_eq (q : Nat) (table preconTable : List Nat) :
    inverseButterfly q table preconTable =
      inverseButterflyText (shoupFactor q table preconTable) (differences q) := by
  funext element b
  unfold inverseButterfly inverseButterflyText shoupFactor
  cases table[b.root]? with
  | none => rfl
  | some omega =>
      cases preconTable[b.root]? with
      | none => rfl
      | some preconOmega => rfl

/-!
## Whole schedules
-/

theorem stage_bounds {k s : Nat} (hs : s < k) {b : Butterfly} (hb : b ∈ stage k s) :
    b.lo < 2 ^ k ∧ b.hi < 2 ^ k ∧ b.root < 2 ^ k := by
  rcases mem_stage hs hb with ⟨i, d, hi, hd, hlo, hhi, hroot⟩
  have hsize := stage_size hs
  have hblock : (i + 1) * (2 * 2 ^ (k - 1 - s)) <= 2 ^ s * (2 * 2 ^ (k - 1 - s)) :=
    Nat.mul_le_mul_right _ hi
  rw [Nat.add_mul, one_mul, hsize] at hblock
  have hindex := stage_root_lt hs hi
  omega

theorem plainForwardSchedule_eq {k : Nat} (hk : 0 < k) :
    plainForwardSchedule (2 ^ k) = (List.range k).flatMap (stage k) := by
  have hstages := forwardStages_eq le_rfl k (Nat.zero_add k) Nat.lt_two_pow_self
    (fun _ => ⟨rfl, rfl⟩)
  rw [pow_zero, Nat.sub_zero, Nat.sub_zero] at hstages
  unfold plainForwardSchedule
  rw [shiftRight_two_pow hk, getMSB_two_pow, Nat.sub_add_cancel hk, hstages,
    List.range_eq_range']

theorem plainInverseStages_eq {k : Nat} (s : Nat) {fuel : Nat} (hs : s < k)
    (hfuel : s + 1 < fuel) :
    plainInverseStages fuel (2 ^ s) (2 ^ (k - 1 - s)) (k - s) =
      (List.range (s + 1)).flatMap fun c => stage k (s - c) := by
  induction s generalizing fuel with
  | zero =>
      obtain ⟨fuel, rfl⟩ : exists f, fuel = f + 2 := ⟨fuel - 2, by omega⟩
      rw [plainInverseStages, if_pos (by decide), plainInverseStages, if_neg (by decide)]
      simp [stage]
  | succ s ih =>
      obtain ⟨fuel, rfl⟩ : exists f, fuel = f + 1 := ⟨fuel - 1, by omega⟩
      have ht : 2 ^ (k - 1 - (s + 1)) <<< 1 = 2 ^ (k - 1 - s) := by
        rw [Nat.shiftLeft_eq, pow_one, ← pow_succ]
        congr 1
        omega
      rw [plainInverseStages, if_pos Nat.one_le_two_pow, shiftRight_two_pow (by omega), ht,
        Nat.add_sub_cancel, show k - (s + 1) + 1 = k - s by omega, ih (by omega) (by omega)]
      conv_rhs => rw [List.range_succ_eq_map, List.flatMap_cons, List.flatMap_map]
      simp [stage]

theorem plainInverseSchedule_eq {k : Nat} (hk : 0 < k) :
    plainInverseSchedule (2 ^ k) =
      (List.range (k - 1)).flatMap (fun c => stage k (k - 1 - c)) ++ stage k 0 := by
  have hfuel : k - 1 + 1 < 2 ^ k := by
    rw [Nat.sub_add_cancel hk]
    exact Nat.lt_two_pow_self
  have hstages := plainInverseStages_eq (k - 1) (show k - 1 < k by omega) hfuel
  rw [Nat.sub_self, pow_zero, show k - (k - 1) = 1 by omega] at hstages
  unfold plainInverseSchedule
  rw [shiftRight_two_pow hk, hstages, List.range_succ, List.flatMap_append]
  simp

section Agreement

variable {k q : Nat} {table : List Nat} {element : List Nat}
  (h : Residues (2 ^ k) q element)

include h

theorem run_agree (reduced : List Nat -> Butterfly -> Option (List Nat))
    (stages : List Nat) {body : List Nat -> Butterfly -> Option (List Nat)}
    (hbody : forall b, b.lo < 2 ^ k -> b.hi < 2 ^ k -> b.root < 2 ^ k ->
      forall xs, Residues (2 ^ k) q xs -> exists r, body xs b = some r ∧
        reduced xs b = some r ∧ Residues (2 ^ k) q r)
    (hstages : forall s, s ∈ stages -> s < k) :
    exists r, (stages.flatMap (stage k)).foldlM body element = some r ∧
      (stages.flatMap (stage k)).foldlM reduced element = some r ∧
      Residues (2 ^ k) q r := by
  refine foldlM_agree (Residues (2 ^ k) q) h ?_
  intro b hb xs hxs
  rcases List.mem_flatMap.mp hb with ⟨s, hs, hbs⟩
  rcases stage_bounds (hstages s hs) hbs with ⟨hlo, hhi, hroot⟩
  exact hbody b hlo hhi hroot xs hxs

theorem forward_agree {body : List Nat -> Butterfly -> Option (List Nat)}
    (hbody : forall b, b.lo < 2 ^ k -> b.hi < 2 ^ k -> b.root < 2 ^ k ->
      forall xs, Residues (2 ^ k) q xs -> exists r, body xs b = some r ∧
        reducedForward q table xs b = some r ∧ Residues (2 ^ k) q r) {r : List Nat}
    (hr : ((List.range k).flatMap (stage k)).foldlM (reducedForward q table) element =
      some r) :
    ((List.range k).flatMap (stage k)).foldlM body element = some r := by
  rcases run_agree h _ (List.range k) hbody (fun s hs => List.mem_range.mp hs)
    with ⟨r', hbody', hreduced, _⟩
  rw [hbody', ← hr, hreduced]

omit h in
theorem lastStage_holds (hk : 0 < k) (hq0 : 0 < q) {f : Nat -> ZMod q} {xs : List Nat}
    (hxs : Holds q (2 ^ k) f xs) (w : Nat) (body : List Nat -> Nat -> Option (List Nat))
    (hbody : forall d, d < 2 ^ (k - 1) -> forall ys x y, ys[d]? = some x ->
      ys[d + 2 ^ (k - 1)]? = some y -> x < q -> y < q ->
      body ys d = some ((ys.set d ((x + y) % q)).set (d + 2 ^ (k - 1))
        ((x + (q - y)) % q * w % q))) :
    exists r, (List.range (2 ^ (k - 1))).foldlM body xs = some r ∧
      Holds q (2 ^ k) (fun i => if i < 2 ^ (k - 1) then f i + f (i + 2 ^ (k - 1))
        else (f (i - 2 ^ (k - 1)) - f i) * w) r := by
  have hfull : 2 ^ k = 2 * 2 ^ (k - 1) := by
    rw [← pow_succ', Nat.sub_add_cancel hk]
  rcases foldlM_pairs_all (fun d => d) (fun d => d + 2 ^ (k - 1)) body
    (fun i => Represents q (f i))
    (fun i => Represents q (if i < 2 ^ (k - 1) then f i + f (i + 2 ^ (k - 1))
        else (f (i - 2 ^ (k - 1)) - f i) * w))
    (List.range (2 ^ (k - 1)))
    (by
      intro i hi
      rw [hxs.length_eq, hfull] at hi
      rw [mem_pairPositions]
      rcases Nat.lt_or_ge i (2 ^ (k - 1)) with hlt | hge
      · exact ⟨i, List.mem_range.mpr hlt, Or.inl rfl⟩
      · exact ⟨i - 2 ^ (k - 1), List.mem_range.mpr (by omega), Or.inr (by omega)⟩)
    (by rw [hxs.length_eq, List.length_range, hfull])
    (by
      intro d hd ys x y hx hy hPx hPy
      have hd' : d < 2 ^ (k - 1) := List.mem_range.mp hd
      refine ⟨_, _, hbody d hd' ys x y hx hy hPx.1 hPy.1, ?_, ?_⟩
      · rw [if_pos hd', ← hPx.2, ← hPy.2, ← Nat.cast_add]
        exact represents_mod hq0 _
      · rw [if_neg (by omega), Nat.add_sub_cancel, ← hPx.2, ← hPy.2]
        have hcast : ((x : ZMod q) - y) * w = (((x + (q - y)) % q * w : Nat) : ZMod q) := by
          have hle := hPy.1.le
          push_cast [ZMod.natCast_mod]
          rw [Nat.cast_sub hle, ZMod.natCast_self]
          ring
        rw [hcast]
        exact represents_mod hq0 _)
    hxs.get with ⟨r, hr, hrlen, hget⟩
  exact ⟨r, hr, hrlen.trans hxs.length_eq, hget⟩

end Agreement

theorem inverseButterflyText_eq {q : Nat} (hq0 : 0 < q) {factor : Factor}
    {times : Nat -> Nat} {b : Butterfly} (hfactor : factor b.root = some times) {w : Nat}
    (htimes : forall x, x < q -> times x = x * w % q) {text : Nat -> Nat -> Nat × Nat}
    (htext : IsSums q text) {ys : List Nat} {x y : Nat} (hx : ys[b.lo]? = some x)
    (hy : ys[b.hi]? = some y) (hx_lt : x < q) (hy_lt : y < q) :
    inverseButterflyText factor text ys b =
      some ((ys.set b.lo ((x + y) % q)).set b.hi ((x + (q - y)) % q * w % q)) := by
  unfold inverseButterflyText
  rw [hfactor, hx, hy]
  simp only [Option.bind_eq_bind, Option.bind_some]
  rw [htext x y hx_lt hy_lt]
  dsimp only
  rw [htimes _ (Nat.mod_lt _ hq0)]
  rfl

theorem stage_zero (k : Nat) : stage k 0 = (List.range (2 ^ (k - 1))).map fun d =>
    { lo := d, hi := d + 2 ^ (k - 1), root := 1 } := by
  unfold stage stageButterflies
  simp [Nat.zero_shiftLeft]

section Inverse

variable {k q : Nat} (hk : 0 < k) (hq0 : 0 < q) {f : Nat -> ZMod q} {xs : List Nat}
  (hxs : Holds q (2 ^ k) f xs) {c : Nat}

/-- What the inverse transforms leave after the last stage and the scaling. -/
def lastEntry (k : Nat) {q : Nat} (f : Nat -> ZMod q) (w c i : Nat) : ZMod q :=
  if i < 2 ^ (k - 1) then (f i + f (i + 2 ^ (k - 1))) * c
  else (f (i - 2 ^ (k - 1)) - f i) * w * c

include hk hq0 hxs

theorem plainTail (factor : Factor) {times scale : Nat -> Nat} (hfactor : factor 1 = some times)
    {w : Nat} (htimes : forall x, x < q -> times x = x * w % q)
    {text : Nat -> Nat -> Nat × Nat} (htext : IsSums q text)
    (hscale : forall x, x < q -> scale x = x * c % q) :
    exists r₁ r, (stage k 0).foldlM (inverseButterflyText factor text) xs = some r₁ ∧
      r₁.length = 2 ^ k ∧
      (List.range (2 ^ k)).foldlM
        (fun ys i => (ys[i]?).bind fun x => some (ys.set i (scale x))) r₁ = some r ∧
      Holds q (2 ^ k) (lastEntry k f w c) r := by
  rcases lastStage_holds hk hq0 hxs w
    (fun ys d => inverseButterflyText factor text ys
      { lo := d, hi := d + 2 ^ (k - 1), root := 1 })
    (fun d _ ys x y hx hy hx_lt hy_lt =>
      inverseButterflyText_eq hq0 hfactor htimes htext hx hy hx_lt hy_lt) with
    ⟨r₁, hr₁, hHolds₁⟩
  rcases scaleRange_holds hq0 hHolds₁ hscale le_rfl with ⟨r, hr, hHolds⟩
  refine ⟨r₁, r, ?_, hHolds₁.length_eq, hr, hHolds.congr ?_⟩
  · rw [stage_zero, List.foldlM_map]
    exact hr₁
  · intro i hi
    rw [if_pos hi, lastEntry]
    split <;> ring

theorem peeledTail (scaled : Factor) {times scale : Nat -> Nat}
    (hscaled : scaled 1 = some times) {w : Nat}
    (htimes : forall x, x < q -> times x = x * (w * c % q) % q)
    {text : Nat -> Nat -> Nat × Nat} (htext : IsSums q text)
    (hscale : forall x, x < q -> scale x = x * c % q) :
    exists r₁ r, (List.range (2 ^ (k - 1))).foldlM (fun ys d =>
        inverseButterflyText scaled text ys { lo := d, hi := d + 2 ^ (k - 1), root := 1 })
          xs = some r₁ ∧
      (List.range (2 ^ (k - 1))).foldlM
        (fun ys i => (ys[i]?).bind fun x => some (ys.set i (scale x))) r₁ = some r ∧
      Holds q (2 ^ k) (lastEntry k f w c) r := by
  rcases lastStage_holds hk hq0 hxs (w * c % q)
    (fun ys d => inverseButterflyText scaled text ys
      { lo := d, hi := d + 2 ^ (k - 1), root := 1 })
    (fun d _ ys x y hx hy hx_lt hy_lt =>
      inverseButterflyText_eq hq0 hscaled htimes htext hx hy hx_lt hy_lt) with
    ⟨r₁, hr₁, hHolds₁⟩
  rcases scaleRange_holds hq0 hHolds₁ hscale
    (Nat.pow_le_pow_right (by decide) (Nat.sub_le k 1)) with ⟨r, hr, hHolds⟩
  refine ⟨r₁, r, hr₁, hr, hHolds.congr ?_⟩
  intro i hi
  unfold lastEntry
  split
  next hlow => rfl
  next hhigh => rw [ZMod.natCast_mod, Nat.cast_mul, mul_assoc]

end Inverse

/-- A table of residues with its preconditioned entries. -/
def RootTables (q n : Nat) (table preconTable : List Nat) : Prop :=
  forall j, j < n -> exists w p, table[j]? = some w ∧ w < q ∧
    prepModMulConst w q = some p ∧ preconTable[j]? = some p

section Variants

variable {k q : Nat} (hk : 0 < k) (hq : q < 2 ^ 60) (hodd : q % 2 = 1) (h1 : 1 < q)
  {table preconTable : List Nat} (htable : RootTables q (2 ^ k) table preconTable)
  {element result : List Nat} (helement : Residues (2 ^ k) q element)
  (hresult : result.length = 2 ^ k)

include hq hodd h1 htable in
theorem isFactor_barrett_table :
    IsFactor q (2 ^ k) table (barrettFactor q (2 ^ (2 * getMSB q + 3) / q) table) :=
  isFactor_barrett hq hodd h1 (computeMu_eq (by omega) h1 hq) fun j hj => by
    rcases htable j hj with ⟨w, _, hw, hlt, _⟩
    exact ⟨w, hw, hlt⟩

include hk hq hodd h1 htable helement hresult

theorem forwardTransforms_agree :
    exists r,
      forwardTransformToBitReverseInPlace q table preconTable element = some r ∧
      forwardShoupInPlaceClang q table preconTable element = some r ∧
      forwardShoup q element table preconTable result = some r ∧
      forwardBarrettInPlace q table element = some r ∧
      forwardBarrett q element table result = some r := by
  have hq0 : 0 < q := by omega
  have hmu := computeMu_eq (by omega) h1 hq
  have hshoup := isFactor_shoup hq htable
  have hbarrett := isFactor_barrett_table hq hodd h1 htable
  have hsums := isSums_sums hq
  have hguard : ¬ result.length ≠ element.length := by
    rw [hresult, helement.1]
    exact not_not.mpr rfl
  rcases run_agree helement (reducedForward q table) (List.range k)
    (fun b hlo hhi hroot xs hxs =>
      forwardButterflyWith_reduced hq0 hshoup hsums hxs hlo hhi hroot)
    (fun s hs => List.mem_range.mp hs) with ⟨r, hr, hreduced, _⟩
  refine ⟨r, ?_, ?_, ?_, ?_, ?_⟩
  · rw [forwardTransformToBitReverseInPlace, helement.1, forwardSchedule_eq hk,
      forwardButterfly_eq]
    exact hr
  · rw [forwardShoupInPlaceClang, helement.1, forwardSchedule_eq hk]
    exact forward_agree helement (fun b hlo hhi hroot xs hxs =>
      forwardButterflyWith_reduced hq0 hshoup (isSums_sumsClang hq) hxs hlo hhi hroot) hreduced
  · rw [forwardShoup, if_neg hguard, helement.1, plainForwardSchedule_eq hk]
    exact forward_agree helement (fun b hlo hhi hroot xs hxs =>
      forwardButterflySkip_reduced hq0 hshoup hsums hxs hlo hhi hroot) hreduced
  · rw [forwardBarrettInPlace, hmu, helement.1, plainForwardSchedule_eq hk]
    exact forward_agree helement (fun b hlo hhi hroot xs hxs =>
      forwardButterflyWith_reduced hq0 hbarrett hsums hxs hlo hhi hroot) hreduced
  · rw [forwardBarrett, if_neg hguard, hmu, helement.1, plainForwardSchedule_eq hk]
    exact forward_agree helement (fun b hlo hhi hroot xs hxs =>
      forwardButterflySkip_reduced hq0 hbarrett hsums hxs hlo hhi hroot) hreduced

variable {cycloOrderInv preconCycloOrderInv : Nat} (hcyclo : cycloOrderInv < q)
  (hprecon : prepModMulConst cycloOrderInv q = some preconCycloOrderInv)

include hcyclo hprecon

theorem inverseTransforms_agree :
    exists r,
      inverseTransformFromBitReverseInPlace q table preconTable cycloOrderInv
        preconCycloOrderInv element = some r ∧
      inverseShoupInPlaceClang q table preconTable cycloOrderInv preconCycloOrderInv element =
        some r ∧
      inverseShoup q element table preconTable cycloOrderInv preconCycloOrderInv result =
        some r ∧
      inverseBarrettInPlace q table cycloOrderInv element = some r ∧
      inverseBarrett q element table cycloOrderInv result = some r := by
  have hq0 : 0 < q := by omega
  have hmu := computeMu_eq (by omega) h1 hq
  have hshoup := isFactor_shoup hq htable
  have hbarrett := isFactor_barrett_table hq hodd h1 htable
  have hdiff := isSums_differences hq
  have hclang := isSums_differencesClang hq
  have hguard : ¬ result.length ≠ element.length := by
    rw [hresult, helement.1]
    exact not_not.mpr rfl
  rw [prepModMulConst_eq (by simp only [maxBits]; omega) hcyclo] at hprecon
  rw [← Option.some.inj hprecon]
  rcases htable 1 (Nat.one_lt_two_pow (by omega)) with ⟨w, p, hw, hw_lt, hp, hpre⟩
  have homega : modMulFastConst w cycloOrderInv q (precon cycloOrderInv q) =
      w * cycloOrderInv % q :=
    modMulFastConst_eq (by omega) hcyclo (by simp only [maxBits]; omega)
  have homega_lt : w * cycloOrderInv % q < q := Nat.mod_lt _ hq0
  have hscale : forall x, x < q ->
      modMulFastConst x cycloOrderInv q (precon cycloOrderInv q) = x * cycloOrderInv % q :=
    fun x hx => modMulFastConst_eq (by omega) hcyclo (by simp only [maxBits]; omega)
  have hscaled : forall x, x < q -> modMulFastConst x (w * cycloOrderInv % q) q
      (precon (w * cycloOrderInv % q) q) = x * (w * cycloOrderInv % q) % q :=
    fun x hx => modMulFastConst_eq (by omega) homega_lt (by simp only [maxBits]; omega)
  have hstages : forall s, s ∈ (List.range (k - 1)).map (fun c => k - 1 - c) -> s < k := by
    intro s hs
    rcases List.mem_map.mp hs with ⟨c, _, rfl⟩
    omega
  -- the stages that all transforms share
  rcases run_agree helement (reducedInverse q table) _
    (fun b hlo hhi hroot xs hxs =>
      inverseButterflyText_reduced hq0 hshoup hdiff hxs hlo hhi hroot) hstages with
    ⟨r₀, hgcc, hreduced, hresidues⟩
  rcases run_agree helement (reducedInverse q table) _
    (fun b hlo hhi hroot xs hxs =>
      inverseButterflyText_reduced hq0 hshoup hclang hxs hlo hhi hroot) hstages with
    ⟨r₁, hclangRun, hreduced₁, _⟩
  rcases run_agree helement (reducedInverse q table) _
    (fun b hlo hhi hroot xs hxs =>
      inverseButterflyText_reduced hq0 hbarrett hdiff hxs hlo hhi hroot) hstages with
    ⟨r₂, hbarrettRun, hreduced₂, _⟩
  rw [hreduced] at hreduced₁ hreduced₂
  rw [← Option.some.inj hreduced₁] at hclangRun
  rw [← Option.some.inj hreduced₂] at hbarrettRun
  rw [List.flatMap_map] at hgcc hclangRun hbarrettRun
  rcases peeledTail hk hq0 hresidues.holds (c := cycloOrderInv) (fun _ =>
    some fun x => modMulFastConst x (w * cycloOrderInv % q) q
      (precon (w * cycloOrderInv % q) q)) rfl hscaled hdiff hscale with
    ⟨t₀, r, ht₀, hr, hr_holds⟩
  rcases peeledTail hk hq0 hresidues.holds (c := cycloOrderInv) (fun _ =>
    some fun x => modMulFastConst x (w * cycloOrderInv % q) q
      (precon (w * cycloOrderInv % q) q)) rfl hscaled hclang hscale with
    ⟨t₁, r₁', ht₁, hr₁, hr₁_holds⟩
  rcases plainTail hk hq0 hresidues.holds (c := cycloOrderInv)
    (barrettFactor q (2 ^ (2 * getMSB q + 3) / q) table)
    (by unfold barrettFactor; rw [hw]; rfl)
    (fun x hx => modMulFastMu_eq (by omega) h1 hq hx hw_lt hmu) hdiff
    (fun x hx => modMulFastMu_eq (by omega) h1 hq hx hcyclo hmu) with
    ⟨t₂, r₂', ht₂, ht₂_length, hr₂, hr₂_holds⟩
  rw [hr₁_holds.unique hr_holds] at hr₁
  rw [hr₂_holds.unique hr_holds] at hr₂
  have hpreconOmega := prepModMulConst_eq (b := w * cycloOrderInv % q) (m := q)
    (by simp only [maxBits]; omega) homega_lt
  have hgccTotal : inverseTransformFromBitReverseInPlace q table preconTable cycloOrderInv
      (precon cycloOrderInv q) element = some r := by
    unfold inverseTransformFromBitReverseInPlace
    rw [helement.1, hw]
    simp only [Option.bind_eq_bind, Option.bind_some]
    rw [homega, hpreconOmega, Option.bind_some, inverseSchedule_eq hk, inverseButterfly_eq,
      hgcc, Option.bind_some, shiftRight_two_pow hk]
    exact Option.bind_eq_some_iff.mpr ⟨t₀, ht₀, hr⟩
  have hbarrettTotal : inverseBarrettInPlace q table cycloOrderInv element = some r := by
    unfold inverseBarrettInPlace
    rw [hmu, helement.1]
    simp only [Option.bind_eq_bind, Option.bind_some]
    rw [plainInverseSchedule_eq hk, List.foldlM_append, hbarrettRun]
    refine Option.bind_eq_some_iff.mpr ⟨t₂, ht₂, ?_⟩
    rw [ht₂_length]
    exact hr₂
  refine ⟨r, hgccTotal, ?_, ?_, hbarrettTotal, ?_⟩
  · unfold inverseShoupInPlaceClang
    rw [helement.1, hw]
    simp only [Option.bind_eq_bind, Option.bind_some]
    rw [homega, hpreconOmega, Option.bind_some, inverseSchedule_eq hk, hclangRun,
      Option.bind_some, shiftRight_two_pow hk]
    exact Option.bind_eq_some_iff.mpr ⟨t₁, ht₁, hr₁⟩
  · rw [inverseShoup, if_neg hguard]
    exact hgccTotal
  · rw [inverseBarrett, if_neg hguard]
    exact hbarrettTotal

end Variants

/--
All forward transforms give the same vector, and all inverse transforms do, for
every table of residues and both texts of the butterflies.
-/
theorem transforms_agree {k q : Nat} (hk : 0 < k) (hprime : Nat.Prime q) (hq : q < 2 ^ 60)
    (hmod : q % (2 * 2 ^ k) = 1) {table preconTable : List Nat}
    (htable : RootTables q (2 ^ k) table preconTable) {cycloOrderInv preconCycloOrderInv : Nat}
    (hcyclo : cycloOrderInv < q)
    (hprecon : prepModMulConst cycloOrderInv q = some preconCycloOrderInv)
    {element result : List Nat} (helement : Residues (2 ^ k) q element)
    (hresult : result.length = 2 ^ k) :
    (exists r,
      forwardTransformToBitReverseInPlace q table preconTable element = some r ∧
      forwardShoupInPlaceClang q table preconTable element = some r ∧
      forwardShoup q element table preconTable result = some r ∧
      forwardBarrettInPlace q table element = some r ∧
      forwardBarrett q element table result = some r) ∧
    exists r,
      inverseTransformFromBitReverseInPlace q table preconTable cycloOrderInv
        preconCycloOrderInv element = some r ∧
      inverseShoupInPlaceClang q table preconTable cycloOrderInv preconCycloOrderInv element =
        some r ∧
      inverseShoup q element table preconTable cycloOrderInv preconCycloOrderInv result =
        some r ∧
      inverseBarrettInPlace q table cycloOrderInv element = some r ∧
      inverseBarrett q element table cycloOrderInv result = some r := by
  have hodd : q % 2 = 1 := by
    rw [← Nat.mod_mod_of_dvd q (Dvd.intro _ rfl : 2 ∣ 2 * 2 ^ k), hmod]
  exact ⟨forwardTransforms_agree hk hq hodd hprime.one_lt htable helement hresult,
    inverseTransforms_agree hk hq hodd hprime.one_lt htable helement hresult hcyclo hprecon⟩

/-- The tables of the root two modulo five, and a vector with a zero operand. -/
theorem transforms_agree_five :
    (exists r,
      forwardTransformToBitReverseInPlace 5 [1, 2] [precon 1 5, precon 2 5] [3, 0] =
        some r ∧
      forwardShoupInPlaceClang 5 [1, 2] [precon 1 5, precon 2 5] [3, 0] = some r ∧
      forwardShoup 5 [3, 0] [1, 2] [precon 1 5, precon 2 5] [0, 0] = some r ∧
      forwardBarrettInPlace 5 [1, 2] [3, 0] = some r ∧
      forwardBarrett 5 [3, 0] [1, 2] [0, 0] = some r) ∧
    exists r,
      inverseTransformFromBitReverseInPlace 5 [1, 2] [precon 1 5, precon 2 5] 3 (precon 3 5)
        [3, 0] = some r ∧
      inverseShoupInPlaceClang 5 [1, 2] [precon 1 5, precon 2 5] 3 (precon 3 5) [3, 0] =
        some r ∧
      inverseShoup 5 [3, 0] [1, 2] [precon 1 5, precon 2 5] 3 (precon 3 5) [0, 0] =
        some r ∧
      inverseBarrettInPlace 5 [1, 2] 3 [3, 0] = some r ∧
      inverseBarrett 5 [3, 0] [1, 2] 3 [0, 0] = some r := by
  have htable : RootTables 5 (2 ^ 1) [1, 2] [precon 1 5, precon 2 5] := by
    intro j hj
    have hcases : j = 0 ∨ j = 1 := by omega
    cases hcases with
    | inl hzero =>
        rw [hzero]
        exact ⟨1, precon 1 5, rfl, by decide, by decide, rfl⟩
    | inr hone =>
        rw [hone]
        exact ⟨2, precon 2 5, rfl, by decide, by decide, rfl⟩
  exact transforms_agree (k := 1) (by decide) (by decide) (by decide) (by decide) htable
    (by decide) (by decide) ⟨rfl, by decide⟩ rfl

end Transform
end Core
end OpenFHE

import OpenFHE.Hal.IntegerPolynomial
import OpenFHE.Hal.ScalarAddition

/-!
# Scalars of double-CRT polynomials

A large integer is converted to a native one before the loop over the towers, which keeps
its low word.  The overloads with one integer for each tower take the residues.
-/

namespace OpenFHE
namespace Hal
namespace DCRTPoly

open OpenFHE.Core OpenFHE.Core.NativeInteger Foundation

/-! ## Operations -/

def plusLarge (a : DCRTPoly) (rhs : Nat) : Option DCRTPoly :=
  let val := word rhs
  mapTowers (fun _ t => t.plusInteger val) a

/-- `operator+=` of a large integer. -/
def plusLargeEq (a : DCRTPoly) (rhs : Nat) : Option DCRTPoly :=
  let val := word rhs
  mapTowers (fun _ t => t.plusIntegerEq val) a

def minusLarge (a : DCRTPoly) (rhs : Nat) : Option DCRTPoly :=
  let val := word rhs
  mapTowers (fun _ t => t.minusInteger val) a

/-- `operator-=` of a large integer. -/
def minusLargeEq (a : DCRTPoly) (rhs : Nat) : Option DCRTPoly :=
  let val := word rhs
  mapTowers (fun _ t => t.minusIntegerEq val) a

def timesLarge (a : DCRTPoly) (rhs : Nat) : Option DCRTPoly :=
  let val := word rhs
  mapTowers (fun _ t => t.timesInteger val) a

def plusVector (a : DCRTPoly) (crtElement : List Nat) : Option DCRTPoly :=
  mapTowers (fun i t => (crtElement[i]?).bind fun element => t.plusInteger (word element)) a

def minusVector (a : DCRTPoly) (crtElement : List Nat) : Option DCRTPoly :=
  mapTowers (fun i t => (crtElement[i]?).bind fun element => t.minusInteger (word element)) a

def timesVector (a : DCRTPoly) (crtElement : List Nat) : Option DCRTPoly :=
  mapTowers (fun i t => (crtElement[i]?).bind fun element => t.timesInteger (word element)) a

def timesNative (a : DCRTPoly) (rhs : List Nat) : Option DCRTPoly :=
  if a.length ≠ rhs.length then none
  else mapTowers (fun i t => (rhs[i]?).bind fun element => t.timesInteger element) a

/-! ## Their meaning -/

def constantAt (c j : Nat) : Nat := if j = 0 then c else 0

/-- Every coefficient of a large polynomial, changed and reduced. -/
def mapValues (f : Nat -> Int -> Int) (p : Poly) : Poly :=
  { p with values := p.values.mapIdx fun j (x : Nat) => (f j x % (p.modulus : Int)).toNat }

/-- On the interpolations the operation changes coefficient `j` by `f j`. -/
def Performs (cache : Poly.TableCache) (ringDimension : Nat) (f : Nat -> Int -> Int)
    (op : DCRTPoly -> Option DCRTPoly) (a : DCRTPoly) : Prop :=
  exists r p, op a = some r ∧ interpolation cache ringDimension a = some p ∧
    interpolation cache ringDimension r = some (mapValues f p)

/-- All overloads are the operations on the interpolations. -/
structure ScalarOperations (cache : Poly.TableCache) (ringDimension : Nat)
    (moduli : List Nat) (a : DCRTPoly) (c : Nat) : Prop where
  plus : Performs cache ringDimension (fun j x => x + constantAt c j) (plusLarge · c) a
  plusEq : Performs cache ringDimension (fun j x => x + constantAt c j) (plusLargeEq · c) a
  minus : Performs cache ringDimension (fun j x => x - constantAt c j) (minusLarge · c) a
  minusEq : Performs cache ringDimension (fun j x => x - constantAt c j) (minusLargeEq · c) a
  times : Performs cache ringDimension (fun _ x => x * c) (timesLarge · c) a
  plusVector : Performs cache ringDimension (fun j x => x + constantAt c j)
    (plusVector · (moduli.map (c % ·))) a
  minusVector : Performs cache ringDimension (fun j x => x - constantAt c j)
    (minusVector · (moduli.map (c % ·))) a
  timesVector : Performs cache ringDimension (fun _ x => x * c)
    (timesVector · (moduli.map (c % ·))) a
  timesNative : Performs cache ringDimension (fun _ x => x * c)
    (timesNative · (moduli.map (c % ·))) a

theorem mapValues_value (f : Nat -> Int -> Int) {p : Poly} {q n : Nat} {format : Format}
    (hp : p.WellFormed q n format) {j : Nat} (hj : j < n) :
    (mapValues f p).value j = (f j (p.value j) % (q : Int)).toNat := by
  have hread := List.getElem?_eq_getElem (show j < p.values.length by rw [hp.2.2.1]; exact hj)
  cases hp.1
  rw [mapValues, Poly.value, Poly.value, List.getD_eq_getElem?_getD, List.getD_eq_getElem?_getD,
    List.getElem?_mapIdx, hread]
  rfl

theorem mapValues_wellFormed (f : Nat -> Int -> Int) {p : Poly} {q n : Nat} {format : Format}
    (hq : 0 < q) (hp : p.WellFormed q n format) : (mapValues f p).WellFormed q n format := by
  refine ⟨hp.1, hp.2.1, ?_, ?_⟩
  · rw [mapValues, List.length_mapIdx, hp.2.2.1]
  · intro y hy
    rcases List.mem_iff_getElem?.mp hy with ⟨j, hj⟩
    rw [mapValues, List.getElem?_mapIdx, Option.map_eq_some_iff] at hj
    rcases hj with ⟨x, _, rfl⟩
    have hlt := Int.emod_lt_of_pos (f j x) (by omega : (0 : Int) < q)
    have hnonneg := Int.emod_nonneg (f j x) (by omega : (q : Int) ≠ 0)
    rw [hp.1]
    omega

section Performs

variable {cache : Poly.TableCache} {k : Nat} {psi : Nat -> Nat} {moduli : List Nat}
  {format : Format} (hk : 0 < k) (hk31 : k <= 31) (hready : ReadyChain cache k psi moduli)
  (hcoprime : moduli.Pairwise Nat.Coprime) {a : DCRTPoly}

include hk hk31 hready hcoprime

theorem performs_iff_modEq {x y : Nat -> Int} (ha : Encodes k psi format moduli x a)
    {op : DCRTPoly -> Option DCRTPoly} {r : DCRTPoly} (hop : op a = some r)
    (hr : Encodes k psi format moduli y r) {f : Nat -> Int -> Int}
    (hf : forall j u v, u ≡ v [ZMOD moduli.prod] -> f j u ≡ f j v [ZMOD moduli.prod]) :
    Performs cache (2 ^ k) f op a <->
      forall j, j < 2 ^ k -> y j ≡ f j (x j) [ZMOD moduli.prod] := by
  have hone : forall q, q ∈ moduli -> 1 < q := fun q hq => (hready q hq).modulus.one_lt
  have hpos := prod_pos hone
  rcases ha.interpolation_eq hk hk31 hready hcoprime with ⟨p, hp, hpwf, hpvalue⟩
  rcases hr.interpolation_eq hk hk31 hready hcoprime with ⟨s, hs, hswf, hsvalue⟩
  have hmeant (j : Nat) (hj : j < 2 ^ k) :
      ((mapValues f p).value j : Int) = f j (x j) % moduli.prod := by
    rw [mapValues_value f hpwf hj, Int.toNat_of_nonneg (Int.emod_nonneg _ (by omega))]
    apply hf
    rw [hpvalue j hj]
    exact Int.mod_modEq _ _
  constructor
  · rintro ⟨r', p', hop', hp', hinterpolation⟩ j hj
    cases hop.symm.trans hop'
    cases hp.symm.trans hp'
    cases hs.symm.trans hinterpolation
    have heq := hmeant j hj
    rw [hsvalue j hj] at heq
    exact heq
  · intro hall
    refine ⟨r, p, hop, hp, ?_⟩
    rw [hs]
    congr 1
    apply hswf.denotes.unique
    apply (mapValues_wellFormed f hpos hpwf).denotes.congr
    intro j hj
    have heq : (s.value j : Int) = (mapValues f p).value j := by
      rw [hsvalue j hj, hmeant j hj]
      exact hall j hj
    exact congrArg Nat.cast (Int.ofNat.inj heq).symm

end Performs

/-!
## One tower
-/

theorem stageArray_mul_constant {q : Nat} (f : Nat -> ZMod q) (c root : ZMod q) (k i : Nat) :
    stageArray (fun j => f j * c) root 1 k i = stageArray f root 1 k i * c := by
  rw [stageArray_last, stageArray_last, Finset.sum_mul]
  apply Finset.sum_congr rfl
  intro j _
  ring

/-- What `Minus` takes away from coefficient `j`. -/
def subtractedAt (format : Format) (c j : Nat) : Nat :=
  match format with
  | .EVALUATION => constantAt c j
  | .COEFFICIENT => c

section Tower

variable {k : Nat} {psi : Nat -> Nat} {q : Nat} (hq : Poly.NttModulus q) {format : Format}
  {x : Nat -> Int} {i : Nat} {t : Poly}
  (ht : Poly.Denotes q (2 ^ k) format (inFormat k psi format (integerResidues x) i q) t)
  {e c : Nat} (he : (e : ZMod q) = c)

include hq ht he

theorem plusInteger_tower :
    exists u, t.plusInteger e = some u ∧ Poly.Denotes q (2 ^ k) format
      (inFormat k psi format (integerResidues fun j => x j + constantAt c j) i q) u := by
  have hconstant (j : Nat) : ((x j : ZMod q) + if j = 0 then (e : ZMod q) else 0) =
      ((x j + constantAt c j : Int) : ZMod q) := by
    rw [Int.cast_add, Int.cast_natCast, constantAt, he]
    split
    · rfl
    · rw [Nat.cast_zero]
  cases format with
  | COEFFICIENT =>
      rcases Poly.plusInteger_coefficient hq (by positivity) ht e with ⟨u, hu, hdenotes⟩
      exact ⟨u, hu, hdenotes.congr fun j _ => hconstant j⟩
  | EVALUATION =>
      rcases Poly.plusInteger_evaluation hq ht e with ⟨u, hu, hdenotes⟩
      refine ⟨u, hu, hdenotes.congr ?_⟩
      intro j _
      rw [inFormat, transform, ← Poly.stageArray_add_constant]
      exact stageArray_congr (fun r _ => hconstant r) _ j

theorem minusInteger_tower :
    exists u, t.minusInteger e = some u ∧ t.minusIntegerEq e = some u ∧
      Poly.Denotes q (2 ^ k) format
        (inFormat k psi format (integerResidues fun j => x j - subtractedAt format c j) i q)
        u := by
  rcases Poly.minusInteger_denotes hq ht e with ⟨u, hu, hueq, hdenotes⟩
  refine ⟨u, hu, hueq, hdenotes.congr ?_⟩
  intro j _
  rw [he]
  cases format with
  | COEFFICIENT =>
      change (x j : ZMod q) - (c : ZMod q) = ((x j - (c : Int) : Int) : ZMod q)
      rw [Int.cast_sub, Int.cast_natCast]
  | EVALUATION =>
      rw [inFormat, transform, sub_eq_add_neg, ← Poly.stageArray_add_constant]
      apply stageArray_congr
      intro r _
      rw [integerResidues, integerResidues, subtractedAt, constantAt]
      split
      · rw [Int.cast_sub, Int.cast_natCast, sub_eq_add_neg]
      · rw [Nat.cast_zero, sub_zero, add_zero]

theorem timesInteger_tower :
    exists u, t.timesInteger e = some u ∧ Poly.Denotes q (2 ^ k) format
      (inFormat k psi format (integerResidues fun j => x j * c) i q) u := by
  rcases Poly.timesInteger_denotes hq e ht with ⟨u, hu, hdenotes⟩
  have hscaled (j : Nat) : (x j : ZMod q) * (c : ZMod q) = ((x j * c : Int) : ZMod q) := by
    rw [Int.cast_mul, Int.cast_natCast]
  refine ⟨u, hu, hdenotes.congr ?_⟩
  intro j _
  rw [he]
  cases format with
  | COEFFICIENT => exact hscaled j
  | EVALUATION =>
      rw [inFormat, transform, ← stageArray_mul_constant]
      exact stageArray_congr (fun r _ => hscaled r) _ j

end Tower

/-!
## All towers
-/

/-- In every tower the operation is one of `single` with a residue of `d`. -/
def ByTower (moduli : List Nat) (single : Poly -> Nat -> Option Poly)
    (op : Nat -> Poly -> Option Poly) (d : Nat) : Prop :=
  forall i q, moduli[i]? = some q -> exists e : Nat, (e : ZMod q) = d ∧
    forall t, op i t = single t e

theorem byTower_same (moduli : List Nat) (single : Poly -> Nat -> Option Poly) (d : Nat) :
    ByTower moduli single (fun _ t => single t d) d :=
  fun _ _ _ => ⟨d, rfl, fun _ => rfl⟩

theorem byTower_residues {moduli : List Nat} (hmoduli : forall q, q ∈ moduli -> Poly.NttModulus q)
    (single : Poly -> Nat -> Option Poly) (c : Nat) :
    ByTower moduli single
        (fun i t => ((moduli.map (c % ·))[i]?).bind fun element => single t (word element)) c ∧
      ByTower moduli single
        (fun i t => ((moduli.map (c % ·))[i]?).bind fun element => single t element) c := by
  have hread {i q : Nat} (hq : moduli[i]? = some q) :
      (moduli.map (c % ·))[i]? = some (c % q) := by
    rw [List.getElem?_map, hq]
    rfl
  constructor
  · intro i q hq
    have hlt := (hmoduli q (List.mem_of_getElem? hq)).lt
    have hmod := Nat.mod_lt c (by have := (hmoduli q (List.mem_of_getElem? hq)).one_lt; omega :
      0 < q)
    refine ⟨c % q, ZMod.natCast_mod c q, ?_⟩
    intro t
    dsimp only
    rw [hread hq, Option.bind_some, word_eq (by simp only [maxBits]; omega)]
  · intro i q hq
    refine ⟨c % q, ZMod.natCast_mod c q, ?_⟩
    intro t
    dsimp only
    rw [hread hq, Option.bind_some]

section Towers

variable {cache : Poly.TableCache} {k : Nat} {psi : Nat -> Nat} {moduli : List Nat}
  {format : Format} (hk : 0 < k) (hk31 : k <= 31) (hready : ReadyChain cache k psi moduli)
  (hcoprime : moduli.Pairwise Nat.Coprime) {a : DCRTPoly}
  (ha : WellFormed (2 ^ k) format moduli a) {op : Nat -> Poly -> Option Poly} {c d : Nat}

include hk hk31 hready hcoprime ha

theorem plus_performs_iff (hop : ByTower moduli Poly.plusInteger op d) :
    Performs cache (2 ^ k) (fun j x => x + constantAt c j) (mapTowers op) a <->
      (d : Int) ≡ c [ZMOD moduli.prod] := by
  rcases ha.exists_encodes hk hk31 hready hcoprime with ⟨p, _, _, hencodes⟩
  rcases mapTowers_denotes op hencodes (by
    intro i q t hq ht
    rcases hop i q hq with ⟨e, he, heq⟩
    rw [heq]
    exact plusInteger_tower (hready q (List.mem_of_getElem? hq)).modulus ht he) with
    ⟨r, hr, hrencodes⟩
  rw [performs_iff_modEq (f := fun j x => x + constantAt c j) hk hk31 hready hcoprime hencodes
    hr hrencodes fun j u v huv => huv.add_right _]
  constructor
  · intro hall
    exact Int.ModEq.add_left_cancel' _ (hall 0 (by positivity))
  · intro heq j _
    apply Int.ModEq.add_left
    unfold constantAt
    split
    · exact heq
    · rfl

theorem minus_performs_iff
    (hop : ByTower moduli Poly.minusInteger op d ∨ ByTower moduli Poly.minusIntegerEq op d) :
    Performs cache (2 ^ k) (fun j x => x - constantAt c j) (mapTowers op) a <->
      (d : Int) ≡ c [ZMOD moduli.prod] ∧
        (format = .EVALUATION ∨ (d : Int) ≡ 0 [ZMOD moduli.prod]) := by
  rcases ha.exists_encodes hk hk31 hready hcoprime with ⟨p, _, _, hencodes⟩
  rcases mapTowers_denotes op hencodes (by
    intro i q t hq ht
    have hmodulus := (hready q (List.mem_of_getElem? hq)).modulus
    rcases hop with hop | hop
    · rcases hop i q hq with ⟨e, he, heq⟩
      rcases minusInteger_tower hmodulus ht he with ⟨u, hu, _, hdenotes⟩
      exact ⟨u, (heq t).trans hu, hdenotes⟩
    · rcases hop i q hq with ⟨e, he, heq⟩
      rcases minusInteger_tower hmodulus ht he with ⟨u, _, hu, hdenotes⟩
      exact ⟨u, (heq t).trans hu, hdenotes⟩) with ⟨r, hr, hrencodes⟩
  rw [performs_iff_modEq (f := fun j x => x - constantAt c j) hk hk31 hready hcoprime hencodes
    hr hrencodes fun j u v huv => huv.sub_right _]
  have hn : 1 < 2 ^ k := Nat.one_lt_two_pow hk.ne'
  have hsub {u v w : Int} (h : u - v ≡ u - w [ZMOD moduli.prod]) : v ≡ w [ZMOD moduli.prod] := by
    have h' := (Int.ModEq.refl u).sub h
    rwa [sub_sub_cancel, sub_sub_cancel] at h'
  cases format with
  | COEFFICIENT =>
      constructor
      · intro hall
        exact ⟨hsub (hall 0 (by omega)), Or.inr (hsub (hall 1 hn))⟩
      · rintro ⟨heq, hzero⟩ j _
        apply (Int.ModEq.refl _).sub
        rcases eq_or_ne j 0 with hj | hj
        · rw [constantAt, if_pos hj]
          exact heq
        · rw [constantAt, if_neg hj]
          exact hzero.resolve_left (by decide)
  | EVALUATION =>
      constructor
      · intro hall
        exact ⟨hsub (hall 0 (by omega)), Or.inl rfl⟩
      · rintro ⟨heq, _⟩ j _
        apply (Int.ModEq.refl _).sub
        rcases eq_or_ne j 0 with hj | hj
        · rw [subtractedAt, constantAt, constantAt, if_pos hj, if_pos hj]
          exact heq
        · rw [subtractedAt, constantAt, constantAt, if_neg hj, if_neg hj]

theorem times_performs (hop : ByTower moduli Poly.timesInteger op d)
    (hd : (d : Int) ≡ c [ZMOD moduli.prod]) :
    Performs cache (2 ^ k) (fun _ x => x * c) (mapTowers op) a := by
  rcases ha.exists_encodes hk hk31 hready hcoprime with ⟨p, _, _, hencodes⟩
  rcases mapTowers_denotes op hencodes (by
    intro i q t hq ht
    rcases hop i q hq with ⟨e, he, heq⟩
    rw [heq]
    exact timesInteger_tower (hready q (List.mem_of_getElem? hq)).modulus ht he) with
    ⟨r, hr, hrencodes⟩
  apply (performs_iff_modEq (f := fun _ x => x * c) hk hk31 hready hcoprime hencodes hr
    hrencodes fun j u v huv => huv.mul_right _).mpr
  intro j _
  exact hd.mul_left _

end Towers

/--
All overloads are right exactly for the words, and in the coefficient format only for zero,
which `Minus` would otherwise take away from every coefficient.
-/
theorem scalarOperations_iff {cache : Poly.TableCache} {k : Nat} {psi : Nat -> Nat}
    {moduli : List Nat} {format : Format} (hk : 0 < k) (hk31 : k <= 31)
    (hready : ReadyChain cache k psi moduli) (hcoprime : moduli.Pairwise Nat.Coprime)
    {a : DCRTPoly} (ha : WellFormed (2 ^ k) format moduli a) {c : Nat}
    (hc : c < moduli.prod) :
    ScalarOperations cache (2 ^ k) moduli a c <->
      c < 2 ^ maxBits ∧ (format = .EVALUATION ∨ c = 0) := by
  have hmoduli : forall q, q ∈ moduli -> Poly.NttModulus q := fun q hq => (hready q hq).modulus
  have hword : word c <= c := Nat.mod_le _ _
  have hkeeps : (word c : Int) ≡ c [ZMOD moduli.prod] <-> c < 2 ^ maxBits := by
    rw [Int.natCast_modEq_iff]
    constructor
    · intro heq
      rw [← heq.eq_of_lt_of_lt (by omega) hc]
      exact Nat.mod_lt _ (by decide)
    · intro hlt
      rw [word_eq hlt]
  have hvanishes {d : Nat} (hd : d < moduli.prod) : (d : Int) ≡ 0 [ZMOD moduli.prod] <-> d = 0 := by
    constructor
    · intro heq
      exact (Int.natCast_modEq_iff.mp heq).eq_of_lt_of_lt hd (Nat.zero_lt_of_lt hd)
    · intro hzero
      rw [hzero]
      rfl
  constructor
  · intro h
    have hlt := hkeeps.mp ((plus_performs_iff hk hk31 hready hcoprime ha
      (byTower_same moduli Poly.plusInteger (word c))).mp h.plus)
    have hminus := ((minus_performs_iff hk hk31 hready hcoprime ha
      (Or.inl (byTower_same moduli Poly.minusInteger (word c)))).mp h.minus).2
    rw [word_eq hlt] at hminus
    exact ⟨hlt, hminus.imp_right (hvanishes hc).mp⟩
  · rintro ⟨hlt, hcases⟩
    have heq := hkeeps.mpr hlt
    have hsame : (c : Int) ≡ c [ZMOD moduli.prod] := rfl
    have hzero := hcases.imp_right (hvanishes hc).mpr
    have hzero' : format = .EVALUATION ∨ (word c : Int) ≡ 0 [ZMOD moduli.prod] := by
      rw [word_eq hlt]
      exact hzero
    have hplus := byTower_residues hmoduli Poly.plusInteger c
    have hminus := byTower_residues hmoduli Poly.minusInteger c
    have htimes := byTower_residues hmoduli Poly.timesInteger c
    constructor
    · exact (plus_performs_iff hk hk31 hready hcoprime ha
        (byTower_same moduli Poly.plusInteger (word c))).mpr heq
    · exact (plus_performs_iff hk hk31 hready hcoprime ha
        (byTower_same moduli Poly.plusInteger (word c))).mpr heq
    · exact (minus_performs_iff hk hk31 hready hcoprime ha
        (Or.inl (byTower_same moduli Poly.minusInteger (word c)))).mpr ⟨heq, hzero'⟩
    · exact (minus_performs_iff hk hk31 hready hcoprime ha
        (Or.inr (byTower_same moduli Poly.minusIntegerEq (word c)))).mpr ⟨heq, hzero'⟩
    · exact times_performs hk hk31 hready hcoprime ha
        (byTower_same moduli Poly.timesInteger (word c)) heq
    · exact (plus_performs_iff hk hk31 hready hcoprime ha hplus.1).mpr hsame
    · exact (minus_performs_iff hk hk31 hready hcoprime ha (Or.inl hminus.1)).mpr ⟨hsame, hzero⟩
    · exact times_performs hk hk31 hready hcoprime ha htimes.1 hsame
    · rcases times_performs hk hk31 hready hcoprime ha htimes.2 hsame with ⟨r, p, hr, hp, hrp⟩
      refine ⟨r, p, ?_, hp, hrp⟩
      unfold timesNative
      dsimp only
      rw [if_neg (by rw [List.length_map, ha.length_eq]; omega)]
      exact hr

theorem smallReadyChain {moduli : List Nat}
    (h : forall q, q ∈ moduli -> q ∈ [5, 13, 17, 29, 1152921504606846869]) :
    ReadyChain Poly.smallCache 1 Poly.smallRoot moduli :=
  fun q hq => Poly.smallReady (h q hq)

theorem scalarOperations_small :
    ScalarOperations Poly.smallCache 2 [13, 17] (zero [13, 17] 2 .EVALUATION) 20 :=
  (scalarOperations_iff (k := 1) (by decide) (by decide) (smallReadyChain (by decide))
    (by decide) (zero_wellFormed (by decide) 2 .EVALUATION) (by decide)).mpr
    ⟨by decide, Or.inl rfl⟩

/-- `2 ^ 64` is not added at all, and `1` is subtracted from every coefficient. -/
theorem scalarOperations_large :
    ¬ ScalarOperations Poly.smallCache 2 [1152921504606846869, 17, 29]
        (zero [1152921504606846869, 17, 29] 2 .EVALUATION) (2 ^ 64) ∧
      ¬ ScalarOperations Poly.smallCache 2 [13, 17] (zero [13, 17] 2 .COEFFICIENT) 1 := by
  constructor
  · intro h
    have heq := (plus_performs_iff (k := 1) (by decide) (by decide)
      (smallReadyChain (by decide)) (by decide +kernel)
      (zero_wellFormed (by decide) 2 .EVALUATION)
      (byTower_same _ Poly.plusInteger (word (2 ^ 64)))).mp h.plus
    exact absurd heq (by decide +kernel)
  · intro h
    have heq := (minus_performs_iff (k := 1) (by decide) (by decide)
      (smallReadyChain (by decide)) (by decide) (zero_wellFormed (by decide) 2 .COEFFICIENT)
      (Or.inl (byTower_same _ Poly.minusInteger (word 1)))).mp h.minus
    exact absurd heq.2 (by decide +kernel)

end DCRTPoly
end Hal
end OpenFHE
